import Mittos64.Mem.Vmm

/-!
# Finding and making tables

`vmm_find_page` without `touch` is the walk of the trie.  With `touch` it links new tables, one
level after the other: `Grown` says what the tables made so far have changed, and
`findTable_spec` that this is all that `vmm_find_page` changes.  Both are stated for any forest
of tables, so that they can be used for one address space, for many that share the kernel half,
and for tables together with the pages mapped by them.
-/

namespace Mem

open Trie (Forest Node)

/-- A place frames come from: `pmm_alloc` returns the first of the frames `fs`, and writes to
other words than the first words of the frames to come do no harm. -/
structure Source (I : List Nat → Machine → Prop) : Prop where
  alloc : ∀ {f fs s}, I (f :: fs) s → ∃ s', pmmAlloc s = some (frame f, s') ∧ s'.mem = s.mem ∧ I fs s'
  withMem : ∀ {fs s mem}, I fs s → (∀ f ∈ fs, words mem f 0 = words s.mem f 0) → I fs (s.withMem mem)

theorem Source.clearPage {I : List Nat → Machine → Prop} (hI : Source I) {fs : List Nat}
    {s : Machine} {f : Nat} (h : I fs s) (hf : f ∉ fs) :
  I fs (clearPage s (frame f))
  := by
  apply hI.withMem h
  intro g hg
  rw [words_fill, clearFrame_of_ne]
  rintro rfl
  apply hf hg

theorem Source.setEntry {I : List Nat → Machine → Prop} (hI : Source I) {fs : List Nat}
    {s : Machine} {t v : Nat} {i : Fin 512} (h : I fs s) (ht : t ∉ fs) (hv : v < 2 ^ 64) :
  I fs (setEntry s (frame t) i v)
  := by
  apply hI.withMem h
  intro g hg
  rw [words_store _ _ _ hv, setWord_of_ne]
  left
  rintro rfl
  apply ht hg

/-- Where frames are only allocated, the history has no new freed ones. -/
theorem Source.freed {I : List Nat → Machine → Prop} (hI : Source I) (L : List Nat) :
  Source fun fs s => I fs s ∧ s.freed = L
  := by
  constructor
  · rintro f fs s ⟨hfs, hfreed⟩
    obtain ⟨s', halloc, hmem, hfs'⟩ := hI.alloc hfs
    refine ⟨s', halloc, hmem, hfs', ?_⟩
    rw [(pmmAlloc_taken halloc).2, hfreed]
  · rintro fs s mem ⟨hfs, hfreed⟩ hmem
    refine ⟨hI.withMem hfs hmem, ?_⟩
    rw [(Machine.withMem_history s mem).2, hfreed]

/-- The frames that the next calls of `pmm_alloc` return. -/
theorem supply_source :
  Source Supply
  := by
  constructor
  · rintro f fs s ⟨s', halloc, hfs⟩
    exact ⟨s', halloc, pmmAlloc_mem halloc, hfs⟩
  · intro fs s mem h hmem
    apply h.withMem hmem

/-- The frames of the free stack of a running allocator. -/
def Stacked (fs : List Nat) (s : Machine) : Prop :=
  s.pmmRunning = true ∧ FreeStack s.mem s.pmmStack fs

theorem stacked_source :
  Source Stacked
  := by
  constructor
  · rintro f fs s ⟨hrun, hstack⟩
    obtain ⟨s', halloc, hmem, hrun', hfs⟩ := hstack.alloc hrun
    exact ⟨s', halloc, hmem, hrun', hfs⟩
  · rintro fs s mem ⟨hrun, hstack⟩ hmem
    exact ⟨hrun, hstack.congr hmem⟩

theorem Stacked.alloc_empty {s : Machine} (h : Stacked [] s) :
  pmmAlloc s = none
  := by
  have hstack : s.pmmStack = 0 := h.2
  rw [pmmAlloc, if_pos h.1, if_pos hstack]

/-- `pmm_free` puts a frame that is not on the stack on the stack. -/
theorem Stacked.free {s : Machine} {page : Nat} {fs : List Nat} (h : Stacked fs s)
    (hpage : page < 2 ^ 64) (hne : p2v (stripFlags page) ≠ 0) (hnot : page / pageSize ∉ fs) :
  Stacked (page / pageSize :: fs) (pmmFree s page)
  := ⟨pmmFree_running s page, h.2.free hpage hne hnot⟩

/-- The tables missing on the path `p` from the table `t`. -/
def missing (T : Words) : Nat → List (Fin 512) → Nat
  | _, [] => 0
  | t, i :: p =>
      match child (T t i) with
      | none => p.length + 1
      | some u => missing T u p

/-- No entry with `PAGE_HUGE` on the path. -/
def NoHuge (T : Words) (r : Nat) (path : List (Fin 512)) : Prop :=
  ∀ p i t, p ++ [i] <+: path → walk T r p = some t → isHuge (T t i) = false

theorem NoHuge.head {T : Words} {t : Nat} {i : Fin 512} {path : List (Fin 512)}
    (h : NoHuge T t (i :: path)) :
  isHuge (T t i) = false
  := by
  apply h [] i t _ rfl
  apply List.prefix_append [i]

/-- The rest of a path without `PAGE_HUGE`. -/
theorem NoHuge.rest {T : Words} {t : Nat} {i : Fin 512} {path : List (Fin 512)}
    (h : NoHuge T t (i :: path)) (hne : T t i ≠ 0) :
  NoHuge T (T t i / pageSize) path
  := by
  intro p j u hp hu
  apply h (i :: p) j u
  · rw [List.cons_append, List.prefix_cons_inj]
    exact hp
  · rw [walk_child hne h.head, hu]

section Grown

variable (Dom : Nat → List (Fin 512) → Prop) (Shared : List (Fin 512) → Prop) (r : Nat)
  (path : List (Fin 512))

/-- The entry `j` of the table `n` is a link on the path to one of the new tables. -/
def LinkAt (T' : Words) (new : List Nat) (n : Nat) (j : Fin 512) : Prop :=
  ∃ p, ∃ f ∈ new, T' n j = addFlags (frame f) tableFlags ∧ p ++ [j] <+: path
    ∧ walk T' r p = some n

/-- The words `T'` are the words `T` with the new tables `new` linked along the path from the
root `r`. -/
structure Grown (T T' : Words) (new : List Nat) : Prop where
  forest : Forest child T' Dom Shared
  fresh : ∀ f ∈ new, ¬ Node child T Dom f
  walks : ∀ {s p}, Dom s p → walk T' s p = walk T s p
    ∨ (walk T s p = none ∧ p <+: path ∧ (s = r ∨ Shared p) ∧ ∃ f ∈ new, walk T' s p = some f)
  cleared : ∀ n ∈ new, ∀ j, T' n j = 0 ∨ LinkAt r path T' new n j
  kept : ∀ n, n ∉ new → ∀ j, T' n j = T n j ∨ (T n j = 0 ∧ LinkAt r path T' new n j)
  reached : ∀ f ∈ new, ∃ p, p ≠ [] ∧ p <+: path ∧ walk T' r p = some f

end Grown

variable {Dom : Nat → List (Fin 512) → Prop} {Shared : List (Fin 512) → Prop} {r : Nat}
  {path : List (Fin 512)} {T T' : Words} {new : List Nat}

/-- Nothing has changed yet. -/
theorem Grown.refl (h : Forest child T Dom Shared) :
  Grown Dom Shared r path T T []
  := by
  constructor
  · apply h
  · simp
  · intro s p _
    left
    rfl
  · simp
  · intro n _ j
    left
    rfl
  · simp

/-- The nodes are the old ones and the new ones. -/
theorem Grown.node (h : Grown Dom Shared r path T T' new) {n : Nat} (hn : Node child T' Dom n) :
  Node child T Dom n ∨ n ∈ new
  := by
  obtain ⟨s, p, hp, hn⟩ := hn
  obtain hsame | ⟨-, -, -, f, hf, hwalk⟩ := h.walks hp
  · left
    exact ⟨s, p, hp, hsame.symm.trans hn⟩
  · right
    obtain rfl := Option.some.inj (hn.symm.trans hwalk)
    apply hf

/-- Old walks are kept. -/
theorem Grown.mono (h : Grown Dom Shared r path T T' new) {s n : Nat} {p : List (Fin 512)}
    (hp : Dom s p) (hn : walk T s p = some n) :
  walk T' s p = some n
  := by
  obtain hsame | ⟨hnone, -⟩ := h.walks hp
  · rw [hsame, hn]
  · rw [hnone] at hn
    cases hn

/-- Linking one more table. -/
theorem Grown.link (h : Grown Dom Shared r path T T' new) {q : List (Fin 512)} {i : Fin 512}
    {t f : Nat} (hshared : ∀ p j, Shared p → Shared (p ++ [j])) (hdom : Dom r path)
    (hq : q ++ [i] <+: path) (ht : walk T' r q = some t) (hzero : T' t i = 0)
    (hf : ¬ Node child T Dom f) (hnew : f ∉ new) :
  Grown Dom Shared r path T
      (setWord (clearFrame T' f) t i (addFlags (frame f) tableFlags)) (new ++ [f])
    ∧ walk (setWord (clearFrame T' f) t i (addFlags (frame f) tableFlags)) r (q ++ [i]) = some f
  := by
  obtain ⟨T'', hT''⟩ : ∃ T'', T'' = setWord (clearFrame T' f) t i (addFlags (frame f) tableFlags) :=
    ⟨_, rfl⟩
  rw [← hT'']
  have hdomain : ∀ p, p <+: path → Dom r p := by
    rintro p ⟨l, rfl⟩
    apply h.forest.closed_append l hdom
  have hqpath : q <+: path := (List.prefix_append q [i]).trans hq
  have hf' : ¬ Node child T' Dom f := by
    intro hnode
    obtain hold | hmem := h.node hnode
    · apply hf hold
    · apply hnew hmem
  have hne : ∀ n, Node child T' Dom n → n ≠ f := by
    rintro n hnode rfl
    apply hf' hnode
  have htf : t ≠ f := hne t ⟨r, q, hdomain q hqpath, ht⟩
  have hother : ∀ n j, n ≠ f → (n ≠ t ∨ j ≠ i) → T'' n j = T' n j := by
    intro n j hnf hedge
    rw [hT'', setWord_of_ne _ _ hedge, clearFrame_of_ne _ _ hnf]
  have hself : T'' t i = addFlags (frame f) tableFlags := by
    rw [hT'', setWord_self]
  have hclear : ∀ j, T'' f j = 0 := by
    intro j
    rw [hT'', setWord_of_ne _ _ (Or.inl htf.symm), clearFrame_self]
  have hnone : child (T' t i) = none := by
    rw [hzero]
    rfl
  have hchild : child (T'' t i) = some f := by
    rw [hself]
    apply (child_addFlags f).2.2
  have hT : ∀ s j, Node child T' Dom s → (s ≠ t ∨ j ≠ i) → T'' s j = T' s j := by
    intro s j hnode
    apply hother s j (hne s hnode)
  have hleaf : ∀ s j, Dom s (q ++ [i, j]) → child (T'' f j) = none := by
    intro s j _
    rw [hclear j]
    rfl
  have hwalk : ∀ {s p}, Dom s p → walk T'' s p = walk T' s p
      ∨ (p = q ++ [i] ∧ walk T' s p = none ∧ walk T'' s p = some f ∧ walk T' s q = some t
        ∧ (s = r ∨ Shared q)) := by
    intro s p hp
    apply h.forest.walk_link (hdomain q hqpath) ht hnone hT hchild hleaf hp
  have hkeep : ∀ p n, p <+: path → walk T' r p = some n → walk T'' r p = some n := by
    intro p n hp hn
    obtain hsame | ⟨-, hnone', -⟩ := hwalk (hdomain p hp)
    · rw [hsame, hn]
    · rw [hnone'] at hn
      cases hn
  have hlinkAt : ∀ n j, n ≠ f → (n ≠ t ∨ j ≠ i) → LinkAt r path T' new n j →
      LinkAt r path T'' (new ++ [f]) n j := by
    rintro n j hnf hedge ⟨p, g, hg, hentry, hp, hn⟩
    refine ⟨p, g, List.mem_append_left _ hg, ?_, hp, ?_⟩
    · rw [hother n j hnf hedge, hentry]
    · apply hkeep p n ((List.prefix_append p [j]).trans hp) hn
  have hlinked : LinkAt r path T'' (new ++ [f]) t i :=
    ⟨q, f, by simp, hself, hq, hkeep q t hqpath ht⟩
  have hend : walk T'' r (q ++ [i]) = some f := by
    rw [walk_concat, hkeep q t hqpath ht, Option.bind_some, hchild]
  refine ⟨?_, hend⟩
  constructor
  · apply h.forest.link (hdomain q hqpath) ht hnone hf' hT hchild hleaf hshared
  · intro g hg
    obtain hg | hg := List.mem_append.mp hg
    · apply h.fresh g hg
    · rw [List.mem_singleton.mp hg]
      apply hf
  · intro s p hp
    obtain hsame | ⟨rfl, hnone', hnew', hs, hsr⟩ := hwalk hp
    · rw [hsame]
      obtain hsame' | ⟨hnone', hpath, hsr, g, hg, hwalk'⟩ := h.walks hp
      · left
        apply hsame'
      · right
        exact ⟨hnone', hpath, hsr, g, List.mem_append_left _ hg, hwalk'⟩
    · right
      refine ⟨?_, hq, ?_, f, by simp, hnew'⟩
      · obtain hsame' | ⟨hnone'', -⟩ := h.walks hp
        · rw [← hsame', hnone']
        · apply hnone''
      · obtain rfl | hsr := hsr
        · left
          rfl
        · right
          apply hshared q i hsr
  · intro n hn j
    by_cases hnf : n = f
    · left
      rw [hnf, hclear]
    · by_cases hedge : n = t ∧ j = i
      · obtain ⟨rfl, rfl⟩ := hedge
        right
        apply hlinked
      · have hn' : n ∈ new := by
          simpa [hnf] using hn
        rw [hother n j hnf (not_and_or.mp hedge)]
        obtain hzero' | hlink := h.cleared n hn' j
        · left
          apply hzero'
        · right
          apply hlinkAt n j hnf (not_and_or.mp hedge) hlink
  · intro n hn j
    have hnf : n ≠ f ∧ n ∉ new := by
      simp only [List.mem_append, List.mem_singleton, not_or] at hn
      exact ⟨hn.2, hn.1⟩
    by_cases hedge : n = t ∧ j = i
    · obtain ⟨rfl, rfl⟩ := hedge
      right
      refine ⟨?_, hlinked⟩
      obtain hsame | ⟨hzero', -⟩ := h.kept n hnf.2 j
      · rw [← hsame, hzero]
      · apply hzero'
    · rw [hother n j hnf.1 (not_and_or.mp hedge)]
      obtain hsame | ⟨hzero', hlink⟩ := h.kept n hnf.2 j
      · left
        apply hsame
      · right
        exact ⟨hzero', hlinkAt n j hnf.1 (not_and_or.mp hedge) hlink⟩
  · intro g hg
    obtain hg | hg := List.mem_append.mp hg
    · obtain ⟨p, hne', hp, hwalk'⟩ := h.reached g hg
      exact ⟨p, hne', hp, hkeep p g hp hwalk'⟩
    · rw [List.mem_singleton.mp hg]
      exact ⟨q ++ [i], by simp, hq, hend⟩

theorem missing_le (T : Words) :
  ∀ (t : Nat) (p : List (Fin 512)), missing T t p ≤ p.length
  | _, [] => Nat.le_refl 0
  | t, i :: p => by
      rw [missing, List.length_cons]
      cases child (T t i) with
      | none => exact Nat.le_refl _
      | some u => exact Nat.le_succ_of_le (missing_le T u p)

/-- An entry on the path that is not zero points to the next table. -/
theorem Grown.child_eq (h : Grown Dom Shared r path T T' new) (hdom : Dom r path)
    (hhuge : NoHuge T r path) {q : List (Fin 512)} {i : Fin 512} {t : Nat}
    (hq : q ++ [i] <+: path) (ht : walk T' r q = some t) (hne : T' t i ≠ 0) :
  child (T' t i) = some (T' t i / pageSize)
  := by
  have hlink : LinkAt r path T' new t i → child (T' t i) = some (T' t i / pageSize) := by
    rintro ⟨-, f, -, hentry, -⟩
    rw [hentry, (child_addFlags f).2.2, addFlags_div, frame_div]
  by_cases hmem : t ∈ new
  · obtain hzero | hlinkAt := h.cleared t hmem i
    · exact absurd hzero hne
    · apply hlink hlinkAt
  · obtain hsame | ⟨-, hlinkAt⟩ := h.kept t hmem i
    · apply child_of_ne hne
      rw [hsame]
      apply hhuge q i t hq
      have hq' : Dom r q := by
        obtain ⟨l, hl⟩ := (List.prefix_append q [i]).trans hq
        apply h.forest.closed_append l
        rw [hl]
        apply hdom
      obtain hwalk | ⟨-, -, -, f, hf, hwalk⟩ := h.walks hq'
      · rw [← hwalk, ht]
      · obtain rfl := Option.some.inj (ht.symm.trans hwalk)
        exact absurd hf hmem
    · apply hlink hlinkAt

/-- The next table, when there is one. -/
theorem nextTable_of_ne {touch : Bool} {s : Machine} {t : Nat} {i : Fin 512}
    (h : words s.mem t i ≠ 0) :
  nextTable touch s (frame t) i = some (words s.mem t i, s)
  := by
  rw [nextTable, entry_frame, if_pos h]

/-- The next table, when there is none and none is made. -/
theorem nextTable_of_eq {s : Machine} {t : Nat} {i : Fin 512} (h : words s.mem t i = 0) :
  nextTable false s (frame t) i = some (0, s)
  := by
  rw [nextTable, entry_frame, if_neg (not_not_intro h), if_neg Bool.false_ne_true]

/-- The next table, when it has to be made. -/
theorem nextTable_touch {s s' : Machine} {p t : Nat} {i : Fin 512} (h : words s.mem t i = 0)
    (halloc : pmmAlloc s = some (p, s')) :
  nextTable true s (frame t) i
    = some (addFlags p tableFlags, setEntry (clearPage s' p) (frame t) i (addFlags p tableFlags))
  := by
  rw [nextTable, entry_frame, if_neg (not_not_intro h), if_pos rfl, halloc]

/-- Making the next table. -/
theorem Grown.nextTable {I : List Nat → Machine → Prop} (hI : Source I) {s : Machine}
    {q : List (Fin 512)} {i : Fin 512} {t f : Nat} {fs : List Nat}
    (h : Grown Dom Shared r path T (words s.mem) new)
    (hshared : ∀ p j, Shared p → Shared (p ++ [j])) (hdom : Dom r path)
    (hq : q ++ [i] <+: path) (ht : walk (words s.mem) r q = some t) (hzero : words s.mem t i = 0)
    (hfs : I (f :: fs) s) (hnodup : (f :: fs).Nodup)
    (hfresh : ∀ g ∈ f :: fs, frame g < 2 ^ 64 ∧ ¬ Node child T Dom g ∧ g ∉ new) :
  ∃ s', Mem.nextTable true s (frame t) i = some (addFlags (frame f) tableFlags, s')
    ∧ Grown Dom Shared r path T (words s'.mem) (new ++ [f])
    ∧ walk (words s'.mem) r (q ++ [i]) = some f ∧ I fs s'
  := by
  obtain ⟨s₁, halloc, hmem, hfs₁⟩ := hI.alloc hfs
  obtain ⟨hnotMem, hnodup⟩ := List.nodup_cons.mp hnodup
  obtain ⟨⟨hlt, hnode, hnew⟩, hfresh⟩ := List.forall_mem_cons.mp hfresh
  have helt := addFlags_lt tableFlags hlt
  have hcleared := words_clearPage s₁ f
  rw [hmem] at hcleared
  have hwords := words_setEntry (clearPage s₁ (frame f)) t i helt
  rw [hcleared] at hwords
  obtain ⟨hgrown, hend⟩ := h.link hshared hdom hq ht hzero hnode hnew
  rw [← hwords] at hgrown hend
  refine ⟨_, nextTable_touch hzero halloc, hgrown, hend, ?_⟩
  -- neither the new table nor its parent is a frame to come
  have hqdom : Dom r q := by
    obtain ⟨l, hl⟩ := (List.prefix_append q [i]).trans hq
    apply h.forest.closed_append l
    rw [hl]
    apply hdom
  apply hI.setEntry (hI.clearPage hfs₁ hnotMem) _ helt
  intro hmem'
  obtain ⟨-, htnode, htnew⟩ := hfresh t hmem'
  obtain hold | hmem' := h.node ⟨r, q, hqdom, ht⟩
  · apply htnode hold
  · apply htnew hmem'

/-- `vmm_find_page` with `touch` links the tables that are missing and nothing else; when there
are not enough frames for them, it goes to `pmm_alloc` with none left. -/
theorem findTable_spec {I : List Nat → Machine → Prop} (hI : Source I)
    (hshared : ∀ p j, Shared p → Shared (p ++ [j])) (hdom : Dom r path)
    (hhuge : NoHuge T r path) {p q : List (Fin 512)} {s : Machine} {t : Nat} {fs : List Nat}
    (hpath : path = q ++ p) (hgrown : Grown Dom Shared r path T (words s.mem) new)
    (ht : walk (words s.mem) r q = some t) (hfs : I fs s) (hnodup : fs.Nodup)
    (hfresh : ∀ f ∈ fs, frame f < 2 ^ 64 ∧ ¬ Node child T Dom f ∧ f ∉ new) :
  (∃ s' t' new' fs', fs = new' ++ fs' ∧ findTable true s (frame t) p = some (p2v (frame t'), s')
      ∧ Grown Dom Shared r path T (words s'.mem) (new ++ new')
      ∧ walk (words s'.mem) r path = some t' ∧ new'.length ≤ p.length ∧ I fs' s')
    ∨ (fs.length < missing (words s.mem) t p
      ∧ ∃ u, I [] u ∧ (pmmAlloc u = none → findTable true s (frame t) p = none))
  := by
  induction p generalizing q s t new fs with
  | nil =>
      left
      rw [List.append_nil] at hpath
      refine ⟨s, t, [], fs, rfl, rfl, ?_, ?_, Nat.le_refl 0, hfs⟩
      · rw [List.append_nil]
        apply hgrown
      · rw [hpath, ht]
  | cons i p ih =>
      have hpath' : path = (q ++ [i]) ++ p := by
        rw [hpath, List.append_cons]
      have hq : q ++ [i] <+: path := by
        rw [hpath']
        apply List.prefix_append
      by_cases hzero : words s.mem t i = 0
      · have hmissing : missing (words s.mem) t (i :: p) = p.length + 1 := by
          rw [missing, hzero]
          rfl
        cases fs with
        | nil =>
            right
            refine ⟨by simp [hmissing], s, hfs, ?_⟩
            intro hnone
            rw [findTable, nextTable, entry_frame, if_neg (not_not_intro hzero), if_pos rfl, hnone]
        | cons f fs =>
            obtain ⟨s', hnext, hgrown', ht', hfs'⟩ :=
              hgrown.nextTable hI hshared hdom hq ht hzero hfs hnodup hfresh
            obtain ⟨hne, -, -⟩ := child_addFlags f
            have hfind : findTable true s (frame t) (i :: p) = findTable true s' (frame f) p := by
              rw [findTable, hnext]
              simp only [if_neg hne]
              rw [stripFlags_eq, addFlags_div, frame_div]
            obtain ⟨hnotMem, hnodup⟩ := List.nodup_cons.mp hnodup
            have hfresh' : ∀ g ∈ fs, frame g < 2 ^ 64 ∧ ¬ Node child T Dom g ∧ g ∉ new ++ [f] := by
              intro g hg
              obtain ⟨hlt, hnode, hnew⟩ := hfresh g (List.mem_cons_of_mem f hg)
              refine ⟨hlt, hnode, ?_⟩
              rw [List.mem_append, List.mem_singleton]
              rintro (hmem | rfl)
              · apply hnew hmem
              · apply hnotMem hg
            rw [hfind, hmissing]
            obtain ⟨u, t', new', fs', rfl, hfind', hgrown'', ht'', hlen, hfs''⟩ |
                ⟨hlen, u, hu, hnone⟩ :=
              ih hpath' hgrown' ht' hfs' hnodup hfresh'
            · left
              refine ⟨u, t', f :: new', fs', rfl, hfind', ?_, ht'', Nat.succ_le_succ hlen, hfs''⟩
              rw [List.append_cons]
              apply hgrown''
            · right
              have hle := missing_le (words s'.mem) f p
              refine ⟨?_, u, hu, hnone⟩
              rw [List.length_cons]
              omega
      · have hchild := hgrown.child_eq hdom hhuge hq ht hzero
        have ht' : walk (words s.mem) r (q ++ [i]) = some (words s.mem t i / pageSize) := by
          rw [walk_concat, ht, Option.bind_some, hchild]
        have hfind : findTable true s (frame t) (i :: p)
            = findTable true s (frame (words s.mem t i / pageSize)) p := by
          rw [findTable, nextTable_of_ne hzero]
          simp only [if_neg hzero]
          rw [stripFlags_eq]
        have hmissing : missing (words s.mem) t (i :: p)
            = missing (words s.mem) (words s.mem t i / pageSize) p := by
          rw [missing, hchild]
        rw [hfind, hmissing]
        obtain ⟨u, t', new', fs', rfl, hfind', hgrown', ht'', hlen, hfs'⟩ | hnone :=
          ih hpath' hgrown ht' hfs hnodup hfresh
        · left
          exact ⟨u, t', new', fs', rfl, hfind', hgrown', ht'', Nat.le_succ_of_le hlen, hfs'⟩
        · right
          apply hnone

/-! ### Reading and writing the entry of a page -/

theorem tableOffset_stripFlags {shift : Nat} (a : Nat) (h : 12 ≤ shift) :
  tableOffset shift (stripFlags a) = tableOffset shift a
  := by
  obtain ⟨k, rfl⟩ : ∃ k, shift = 12 + k := ⟨shift - 12, by omega⟩
  have hshift : stripFlags a >>> (12 + k) = a >>> (12 + k) := by
    rw [Nat.shiftRight_add, Nat.shiftRight_add, Nat.shiftRight_eq_div_pow _ 12,
      Nat.shiftRight_eq_div_pow _ 12, stripFlags]
    congr 1
    apply Nat.mul_div_cancel
    decide
  simp only [tableOffset, hshift]

@[simp]
theorem tablePath_stripFlags (a : Nat) :
  tablePath (stripFlags a) = tablePath a
  := by
  simp only [tablePath, p4Offset, p3Offset, p2Offset]
  rw [tableOffset_stripFlags a (by decide), tableOffset_stripFlags a (by decide),
    tableOffset_stripFlags a (by decide)]

/-- The entry of the page of the address `a` in the address space `r`, zero when a table is
missing. -/
def lookup (T : Words) (r a : Nat) : Nat :=
  match walk T r (tablePath a) with
  | none => 0
  | some t => T t (p1Offset a)

/-- A table other than the root lies in the physical address space. -/
theorem frame_lt_of_walk {m : Memory} {r t : Nat} {p : List (Fin 512)} (hp : p ≠ [])
    (h : walk (words m) r p = some t) :
  frame t < 2 ^ 64
  := by
  obtain ⟨q, i, rfl⟩ := List.eq_nil_or_concat p |>.resolve_left hp
  rw [List.concat_eq_append, walk_concat] at h
  obtain ⟨u, -, hchild⟩ := Option.bind_eq_some_iff.mp h
  rw [child] at hchild
  split_ifs at hchild
  obtain rfl := Option.some.inj hchild
  apply frame_div_lt (words_lt m u i)

/-- `vmm_find_page` without `touch` is the walk, where there is no `PAGE_HUGE`. -/
theorem findTable_read {s : Machine} {t : Nat} {p : List (Fin 512)}
    (hhuge : NoHuge (words s.mem) t p) :
  findTable false s (frame t) p
    = some (match walk (words s.mem) t p with
        | none => 0
        | some u => p2v (frame u), s)
  := by
  induction p generalizing t with
  | nil => rfl
  | cons i p ih =>
      by_cases hzero : words s.mem t i = 0
      · rw [findTable, nextTable_of_eq hzero, walk_cons, hzero]
        rfl
      · rw [findTable, nextTable_of_ne hzero]
        simp only [if_neg hzero]
        rw [stripFlags_eq, ih (hhuge.rest hzero), walk_child hzero hhuge.head]

/-- `vmm_get_page` reads the entry of the page, where there is no `PAGE_HUGE`. -/
theorem vmmGetPage_eq {bootP4 P4 r a : Nat} {s : Machine} (hroot : resolveP4 bootP4 P4 = frame r)
    (hhuge : NoHuge (words s.mem) r (tablePath a))
    (hnull : ∀ t, walk (words s.mem) r (tablePath a) = some t → p2v (frame t) ≠ 0) :
  vmmGetPage bootP4 s P4 a = lookup (words s.mem) r a
  := by
  rw [vmmGetPage, vmmFindPage, hroot, tablePath_stripFlags, findTable_read hhuge, lookup]
  cases ht : walk (words s.mem) r (tablePath a) with
  | none => rfl
  | some t =>
      have hlt : frame t < 2 ^ 64 := frame_lt_of_walk (by simp [tablePath]) ht
      simp only [if_neg (hnull t ht), v2p_p2v hlt, entry_frame]

/-- `vmm_set_page` links the tables that are missing, and writes the entry of the page. -/
theorem vmmSetPage_spec {I : List Nat → Machine → Prop} (hI : Source I)
    (hshared : ∀ p j, Shared p → Shared (p ++ [j])) {bootP4 P4 a phys : Nat} (flags : Nat)
    {s : Machine} {fs : List Nat} (hforest : Forest child (words s.mem) Dom Shared)
    (hdom : Dom r (tablePath a)) (hroot : resolveP4 bootP4 P4 = frame r)
    (hhuge : NoHuge (words s.mem) r (tablePath a))
    (hnull : ∀ t, walk (words s.mem) r (tablePath a) = some t → p2v (frame t) ≠ 0)
    (hfs : I fs s) (hnodup : fs.Nodup)
    (hfresh : ∀ f ∈ fs, frame f < 2 ^ 64 ∧ p2v (frame f) ≠ 0
      ∧ ¬ Node child (words s.mem) Dom f)
    (hphys : phys < 2 ^ 64) :
  (∃ s' t T' new fs', fs = new ++ fs'
      ∧ vmmSetPage bootP4 s P4 a phys flags = some (addFlags phys flags, s')
      ∧ Grown Dom Shared r (tablePath a) (words s.mem) T' new
      ∧ walk T' r (tablePath a) = some t
      ∧ words s'.mem = setWord T' t (p1Offset a) (addFlags phys flags) ∧ new.length ≤ 3 ∧ I fs' s')
    ∨ (fs.length < missing (words s.mem) r (tablePath a)
      ∧ ∃ u, I [] u ∧ (pmmAlloc u = none → vmmSetPage bootP4 s P4 a phys flags = none))
  := by
  have hvalue := addFlags_lt flags hphys
  obtain ⟨s₁, t, new, fs', rfl, hfind, hgrown, ht, hlen, hfs'⟩ | ⟨hlen, u, hu, hnone⟩ :=
    findTable_spec hI hshared hdom hhuge (p := tablePath a) (q := []) rfl (.refl hforest) rfl hfs
      hnodup
      (fun f hf => ⟨(hfresh f hf).1, (hfresh f hf).2.2, List.not_mem_nil⟩)
  · left
    rw [List.nil_append] at hgrown
    have hlt : frame t < 2 ^ 64 := frame_lt_of_walk (by simp [tablePath]) ht
    have hnode : Node child (words s.mem) Dom t ∨ t ∈ new := hgrown.node ⟨r, _, hdom, ht⟩
    have hne : p2v (frame t) ≠ 0 := by
      obtain hsame | ⟨-, -, -, f, hf, hwalk⟩ := hgrown.walks hdom
      · apply hnull t
        rw [← hsame, ht]
      · obtain rfl := Option.some.inj (ht.symm.trans hwalk)
        apply (hfresh t (List.mem_append_left _ hf)).2.1
    have hwords := words_setEntry s₁ t (p1Offset a) hvalue
    refine ⟨setEntry s₁ (frame t) (p1Offset a) (addFlags phys flags), t, words s₁.mem, new, fs',
      rfl, ?_, hgrown, ht, hwords, hlen, ?_⟩
    · rw [vmmSetPage, vmmFindPage, hroot, tablePath_stripFlags, hfind]
      simp only [if_neg hne, v2p_p2v hlt, entry_frame]
      rw [hwords, setWord_self]
    · apply hI.setEntry hfs' _ hvalue
      intro hmem
      obtain hold | hmem' := hnode
      · apply (hfresh t (List.mem_append_right _ hmem)).2.2 hold
      · apply (List.nodup_append.mp hnodup).2.2 t hmem' t hmem rfl
  · right
    refine ⟨hlen, u, hu, ?_⟩
    intro halloc
    rw [vmmSetPage, vmmFindPage, hroot, tablePath_stripFlags, hnone halloc]

end Mem
