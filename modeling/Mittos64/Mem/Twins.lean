import Mittos64.Mem.Follow

/-!
# Machines that agree in some places

`pmm_alloc` reads the pointer in the frame that it returns, `vmm_find_page` the tables that it
follows, and it clears a new table before it reads it.  On two machines that agree in these places
`vmm_set_page` does the same, and afterwards they agree in the new tables too.  Nothing is asked of
the other bytes.
-/

namespace Mem

/-- The machines agree at the addresses in `B`, and in all but the memory. -/
structure Twins (B : Nat → Prop) (s s' : Machine) : Prop where
  machine : s' = s.withMem s'.mem
  bytes : ∀ x, B x → s'.mem x = s.mem x

/-- The bytes of the frame are in `B`. -/
def FrameIn (B : Nat → Prop) (n : Nat) : Prop :=
  ∀ x, x / pageSize = n → B x

section Twins

variable {B B' : Nat → Prop} {s s' s₁ : Machine} {fs : List Nat}

theorem Twins.mono (h : Twins B s s') (hB : ∀ x, B' x → B x) :
  Twins B' s s'
  := ⟨h.machine, fun x hx => h.bytes x (hB x hx)⟩

/-- Both memories change. -/
theorem Twins.withMem (h : Twins B s s') {mem mem' : Memory} (hmem : ∀ x, B' x → mem' x = mem x) :
  Twins B' (s.withMem mem) (s'.withMem mem')
  := ⟨congrArg (fun u => u.withMem mem') h.machine, hmem⟩

theorem Twins.words (h : Twins B s s') {n : Nat} (hn : FrameIn B n) :
  words s'.mem n = words s.mem n
  := by
  funext i
  apply words_congr
  intro x hx hx'
  apply h.bytes
  apply hn
  rw [frame, pageSize] at hx hx'
  rw [pageSize]
  omega

/-- The same word is written to both. -/
theorem Twins.setEntry (h : Twins B s s') (table : Nat) (i : Fin 512) (v : Nat) :
  Twins B (setEntry s table i v) (setEntry s' table i v)
  := by
  apply h.withMem
  intro x hx
  rw [Memory.store, Memory.store]
  split_ifs
  · rfl
  · exact h.bytes x hx

/-- A frame that is cleared on both is the same. -/
theorem Twins.clearPage (h : Twins B s s') (f : Nat) :
  Twins (fun x => B x ∨ x / pageSize = f) (clearPage s (frame f)) (clearPage s' (frame f))
  := by
  apply h.withMem
  intro x hx
  rw [Memory.fill, Memory.fill]
  split_ifs with hin
  · rfl
  · apply h.bytes
    apply hx.resolve_right
    rintro rfl
    rw [frame, pageSize] at hin
    omega

/-- `pmm_alloc` returns the same frame. -/
theorem Twins.pmmAlloc {f : Nat} (h : Twins B s s') (hlink : ∀ i < 8, B (frame f + i))
    (halloc : pmmAlloc s = some (frame f, s₁)) :
  ∃ s₁', Mem.pmmAlloc s' = some (frame f, s₁') ∧ Twins B s₁ s₁'
  := by
  have hword : Mem.words s'.mem f 0 = Mem.words s.mem f 0 := by
    apply Memory.load_congr
    intro x hx hx'
    simp only [Fin.val_zero, Nat.mul_zero, Nat.add_zero] at hx hx'
    apply h.bytes
    obtain ⟨i, rfl⟩ := Nat.exists_eq_add_of_le hx
    exact hlink i (by omega)
  have halloc' := pmmAlloc_withMem halloc hword
  rw [← h.machine] at halloc'
  refine ⟨s₁.withMem s'.mem, halloc', rfl, ?_⟩
  intro x hx
  rw [pmmAlloc_mem halloc]
  exact h.bytes x hx

end Twins

/-! ### Finding and making tables -/

/-- A new table leads nowhere. -/
theorem found_cleared {T : Words} {t : Nat} (h : ∀ j, T t j = 0) (path : List (Fin 512)) :
  found T t path = [t]
  := by
  cases path with
  | nil => rfl
  | cons i path => rw [found, if_pos (h i)]

/-- The tables on the way are those of the trie, where there is no `PAGE_HUGE`. -/
theorem walk_of_found {T : Words} {t n : Nat} {path : List (Fin 512)} (hhuge : NoHuge T t path)
    (hn : n ∈ found T t path) :
  ∃ p, p <+: path ∧ walk T t p = some n
  := by
  induction path generalizing t with
  | nil =>
      obtain rfl := List.mem_singleton.mp hn
      exact ⟨[], List.prefix_refl _, rfl⟩
  | cons i path ih =>
      rw [found, List.mem_cons] at hn
      obtain rfl | hn := hn
      · exact ⟨[], List.nil_prefix, rfl⟩
      · by_cases hzero : T t i = 0
        · rw [if_pos hzero] at hn
          cases hn
        · rw [if_neg hzero] at hn
          obtain ⟨p, hp, hwalk⟩ := ih (hhuge.rest hzero) hn
          refine ⟨i :: p, ?_, ?_⟩
          · simpa using hp
          · rw [walk_child hzero hhuge.head]
            exact hwalk

section Find

variable {B : Nat → Prop} {s s' s₁ : Machine} {fs : List Nat} {path : List (Fin 512)}

/-- The two machines agree in the pointers of the free stack and in the tables on the path. -/
structure InView (B : Nat → Prop) (fs : List Nat) (s : Machine) (t : Nat)
    (path : List (Fin 512)) : Prop where
  stack : Stacked fs s
  links : ∀ f ∈ fs, ∀ i < 8, B (frame f + i)
  tables : ∀ n ∈ found (words s.mem) t path, n ∉ fs ∧ frame n < 2 ^ 64 ∧ FrameIn B n

/-- The next table, when there is no frame for it. -/
theorem nextTable_none {t : Nat} {i : Fin 512} (h : words s.mem t i = 0)
    (halloc : pmmAlloc s = none) :
  nextTable true s (frame t) i = none
  := by
  rw [nextTable, entry_frame, if_neg (not_not_intro h), if_pos rfl, halloc]

/-- The next table is made on both machines. -/
theorem InView.touch {f t : Nat} {i : Fin 512} (h : InView B (f :: fs) s t (i :: path))
    (htwins : Twins B s s') (hzero : words s.mem t i = 0) :
  ∃ s₁ s₁', nextTable true s (frame t) i = some (addFlags (frame f) tableFlags, s₁)
    ∧ nextTable true s' (frame t) i = some (addFlags (frame f) tableFlags, s₁')
    ∧ Twins (fun x => B x ∨ x / pageSize = f) s₁ s₁'
    ∧ InView (fun x => B x ∨ x / pageSize = f) fs s₁ f path
  := by
  obtain ⟨hnot, -⟩ := List.nodup_cons.mp h.stack.2.nodup
  have hf : frame f < 2 ^ 64 := h.stack.2.2.2.1
  have helt := addFlags_lt tableFlags hf
  obtain ⟨ht, -, hin⟩ := h.tables t List.mem_cons_self
  obtain ⟨s₂, halloc, hmem, hstack⟩ := stacked_source.alloc h.stack
  obtain ⟨s₂', halloc', htwins'⟩ := htwins.pmmAlloc (h.links f List.mem_cons_self) halloc
  have hzero' : words s'.mem t i = 0 := by
    rw [htwins.words hin]
    exact hzero
  have hnext := nextTable_touch hzero halloc
  have hnext' := nextTable_touch hzero' halloc'
  refine ⟨_, _, hnext, hnext', (htwins'.clearPage f).setEntry (frame t) i _, ?_⟩
  constructor
  · apply stacked_source.setEntry (stacked_source.clearPage hstack hnot) _ helt
    exact fun hmem' => ht (List.mem_cons_of_mem f hmem')
  · intro g hg j hj
    exact Or.inl (h.links g (List.mem_cons_of_mem f hg) j hj)
  · intro n hn
    have hft : f ≠ t := by
      rintro rfl
      exact ht List.mem_cons_self
    rw [words_setEntry _ _ _ helt, words_clearPage, found_cleared, List.mem_singleton] at hn
    · obtain rfl := hn
      exact ⟨hnot, hf, fun x hx => Or.inr hx⟩
    · intro j
      rw [setWord_of_ne _ _ (Or.inl hft), clearFrame_self]

/-- `vmm_find_page` with `touch` makes the same tables. -/
theorem InView.findTable {t P1 : Nat} (h : InView B fs s t path) (htwins : Twins B s s')
    (hcall : findTable true s (frame t) path = some (P1, s₁)) :
  ∃ new fs₁ s₁' u, fs = new ++ fs₁ ∧ Mem.findTable true s' (frame t) path = some (P1, s₁')
    ∧ Stacked fs₁ s₁ ∧ Twins (fun x => B x ∨ x / pageSize ∈ new) s₁ s₁'
    ∧ P1 = p2v (frame u) ∧ frame u < 2 ^ 64 ∧ u ∉ fs₁
  := by
  induction path generalizing fs s s' t B with
  | nil =>
      obtain ⟨rfl, rfl⟩ := Prod.mk.inj (Option.some.inj hcall)
      obtain ⟨hnot, hlt, -⟩ := h.tables t List.mem_cons_self
      refine ⟨[], fs, s', t, rfl, rfl, h.stack, htwins.mono ?_, rfl, hlt, hnot⟩
      exact fun x hx => hx.resolve_right List.not_mem_nil
  | cons i path ih =>
      obtain ⟨-, -, hin⟩ := h.tables t List.mem_cons_self
      rw [Mem.findTable] at hcall
      by_cases hzero : words s.mem t i = 0
      · cases fs with
        | nil =>
            rw [nextTable_none hzero h.stack.alloc_empty] at hcall
            cases hcall
        | cons f fs =>
            obtain ⟨s₂, s₂', htouch, htouch', htwins', hnext⟩ := h.touch htwins hzero
            rw [htouch] at hcall
            simp only [if_neg (child_addFlags f).1, stripFlags_eq, addFlags_div, frame_div] at hcall
            obtain ⟨new, fs₁, s₁', u, rfl, hcall', hstack, htwins₁, hu⟩ := ih hnext htwins' hcall
            refine ⟨f :: new, fs₁, s₁', u, rfl, ?_, hstack, htwins₁.mono ?_, hu⟩
            · rw [Mem.findTable, htouch']
              simp only [if_neg (child_addFlags f).1, stripFlags_eq, addFlags_div, frame_div]
              exact hcall'
            · rintro x (hx | hx)
              · exact Or.inl (Or.inl hx)
              · obtain rfl | hx := List.mem_cons.mp hx
                · exact Or.inl (Or.inr rfl)
                · exact Or.inr hx
      · have hword := congrFun (htwins.words hin) i
        have hne : words s'.mem t i ≠ 0 := by
          rw [hword]
          exact hzero
        rw [nextTable_of_ne hzero] at hcall
        simp only [if_neg hzero, stripFlags_eq] at hcall
        have hnext : InView B fs s (words s.mem t i / pageSize) path := by
          refine ⟨h.stack, h.links, ?_⟩
          intro n hn
          apply h.tables
          rw [found, if_neg hzero]
          exact List.mem_cons_of_mem t hn
        obtain ⟨new, fs₁, s₁', u, hfs, hcall', hrest⟩ := ih hnext htwins hcall
        refine ⟨new, fs₁, s₁', u, hfs, ?_, hrest⟩
        rw [Mem.findTable, nextTable_of_ne hne, hword]
        simp only [if_neg hzero, stripFlags_eq]
        exact hcall'

/-- `vmm_set_page` makes the same tables and writes the same entry. -/
theorem InView.vmmSetPage {bootP4 P4 r a phys flags v : Nat}
    (h : InView B fs s r (tablePath a)) (htwins : Twins B s s')
    (hroot : resolveP4 bootP4 P4 = frame r) (hphys : phys < 2 ^ 64)
    (hcall : vmmSetPage bootP4 s P4 a phys flags = some (v, s₁)) :
  ∃ new fs₁ s₁' v', fs = new ++ fs₁
    ∧ Mem.vmmSetPage bootP4 s' P4 a phys flags = some (v', s₁')
    ∧ Stacked fs₁ s₁ ∧ Twins (fun x => B x ∨ x / pageSize ∈ new) s₁ s₁'
  := by
  rw [Mem.vmmSetPage, hroot, vmmFindPage, tablePath_stripFlags] at hcall
  split at hcall
  · cases hcall
  · rename_i P1 s₂ hfind
    obtain ⟨new, fs₁, s₂', u, rfl, hfind', hstack, htwins', hP1, hlt, hu⟩ :=
      h.findTable htwins hfind
    rw [Mem.vmmSetPage, hroot, vmmFindPage, tablePath_stripFlags, hfind']
    dsimp only
    rw [hP1, v2p_p2v hlt] at hcall ⊢
    split_ifs at hcall ⊢
    · obtain ⟨-, rfl⟩ := Prod.mk.inj (Option.some.inj hcall)
      exact ⟨new, fs₁, _, _, rfl, rfl, hstack, htwins'⟩
    · obtain ⟨-, rfl⟩ := Prod.mk.inj (Option.some.inj hcall)
      refine ⟨new, fs₁, _, _, rfl, rfl, ?_, htwins'.setEntry _ _ _⟩
      exact stacked_source.setEntry hstack hu (addFlags_lt flags hphys)

end Find

end Mem
