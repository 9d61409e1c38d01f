import Mittos64.Mem.VmmSpec

/-!
# Freeing an address space

`vmm_free_P4` frees the frame of an entry after everything below it, and clears the entry; then
it goes on with the next entry of the same table, which it reads from the memory it has been
changing.  An edge is a path from the P4 to a table together with the index of an entry of it.
`Frees r s₀ es s` says that `s` is the machine `s₀` after the entries of the edges `es` have been
freed and cleared, the last one first.  When the frames below the P4 are distinct, this order is
harmless: `vmm_free_P4` frees the frame of every edge of the user half once (`vmmFreeP4_spec`).
-/

namespace Mem

/-- A path to a table and the index of an entry of the table. -/
abbrev Edge : Type := List (Fin 512) × Fin 512

/-- The path of the edge. -/
def Edge.path (e : Edge) : List (Fin 512) :=
  e.1 ++ [e.2]

/-- The edges that `vmm_free_P4` passes: those of tables that are not under the entry of the
kernel. -/
def Edge.User (e : Edge) : Prop :=
  e.1.length ≤ 3 ∧ e.path.head? ≠ some 511

theorem Edge.User.head {e : Edge} (h : e.User) :
  e.1.head? ≠ some 511
  := by
  intro hhead
  apply h.2
  rw [Edge.path, List.head?_append, hhead]
  rfl

/-- The entry of the edge is not zero. -/
def HasEdge (T : Words) (r : Nat) (e : Edge) : Prop :=
  ∃ t, walk T r e.1 = some t ∧ T t e.2 ≠ 0

/-- The frame of the entry of the edge. -/
def edgeFrame (T : Words) (r : Nat) (e : Edge) : Nat :=
  T ((walk T r e.1).getD 0) e.2 / pageSize

theorem edgeFrame_eq {T : Words} {r t : Nat} {e : Edge} (h : walk T r e.1 = some t) :
  edgeFrame T r e = T t e.2 / pageSize
  := by
  rw [edgeFrame, h]
  rfl

/-- Free the frame of an entry and clear the entry. -/
def freeEntry (s : Machine) (t : Nat) (i : Fin 512) (f : Nat) : Machine :=
  setEntry (pmmFree s (frame f)) (frame t) i 0

/-- The machine `s₀` after the entries of the edges `es` have been freed and cleared. -/
inductive Frees (r : Nat) (s₀ : Machine) : List Edge → Machine → Prop where
  | refl : Frees r s₀ [] s₀
  | step {es : List Edge} {s : Machine} {e : Edge} {t : Nat} (h : Frees r s₀ es s)
      (ht : walk (words s₀.mem) r e.1 = some t) (hne : words s₀.mem t e.2 ≠ 0) (he : e ∉ es)
      (hframe : t ∉ (e :: es).map (edgeFrame (words s₀.mem) r)) :
      Frees r s₀ (e :: es) (freeEntry s t e.2 (edgeFrame (words s₀.mem) r e))

section Frees

variable {r : Nat} {s₀ s : Machine} {es : List Edge}

theorem edgeFrame_lt {m : Memory} (e : Edge) :
  frame (edgeFrame (words m) r e) < 2 ^ 64
  := frame_div_lt (words_lt m _ _)

/-- The words after an entry has been freed: but for the entry and the first word of the frame
all words are kept. -/
theorem words_freeEntry_of_ne {t f n : Nat} {i j : Fin 512} (hf : frame f < 2 ^ 64)
    (hedge : n ≠ t ∨ j ≠ i) (hframe : n ≠ f ∨ j ≠ 0) :
  words (freeEntry s t i f).mem n j = words s.mem n j
  := by
  rw [freeEntry, words_setEntry _ _ _ (by decide), setWord_of_ne _ _ hedge]
  apply words_pmmFree_of_ne hf
  rwa [frame_div]

theorem freeEntry_history (s : Machine) (t : Nat) (i : Fin 512) (f : Nat) :
  (freeEntry s t i f).taken = s.taken ∧ (freeEntry s t i f).freed = f :: s.freed
  := by
  obtain ⟨htaken, hfreed⟩ := Machine.withMem_history (pmmFree s (frame f))
    ((pmmFree s (frame f)).mem.store (frame t + 8 * i) 8 0)
  obtain ⟨htaken', hfreed'⟩ := pmmFree_history s (frame f)
  rw [frame_div] at hfreed'
  rw [freeEntry, setEntry, htaken, hfreed, htaken', hfreed']
  exact ⟨rfl, rfl⟩

/-- Words that are neither an entry of the edges nor the first word of a freed frame are kept. -/
theorem Frees.words_eq (h : Frees r s₀ es s) {n : Nat} {j : Fin 512}
    (hedge : ∀ e ∈ es, walk (words s₀.mem) r e.1 = some n → e.2 ≠ j)
    (hframe : n ∉ es.map (edgeFrame (words s₀.mem) r) ∨ j ≠ 0) :
  words s.mem n j = words s₀.mem n j
  := by
  induction h with
  | refl => rfl
  | step h ht _ _ _ ih =>
      rw [List.forall_mem_cons] at hedge
      rw [words_freeEntry_of_ne (edgeFrame_lt _), ih hedge.2]
      · apply hframe.imp_left
        intro hnot hmem
        apply hnot
        apply List.mem_cons_of_mem _ hmem
      · by_contra! hsame
        obtain ⟨rfl, rfl⟩ := hsame
        apply hedge.1 ht rfl
      · apply hframe.imp_left
        intro hnot heq
        apply hnot
        rw [heq]
        apply List.mem_cons_self

theorem Frees.nodup (h : Frees r s₀ es s) :
  es.Nodup
  := by
  induction h with
  | refl => exact List.nodup_nil
  | step _ _ _ he _ ih => exact List.nodup_cons.mpr ⟨he, ih⟩

/-- The history of the frames. -/
theorem Frees.history (h : Frees r s₀ es s) :
  s.taken = s₀.taken ∧ s.freed = es.map (edgeFrame (words s₀.mem) r) ++ s₀.freed
  := by
  induction h with
  | refl => exact ⟨rfl, rfl⟩
  | @step es s e t h _ _ _ _ ih =>
      obtain ⟨htaken, hfreed⟩ :=
        freeEntry_history s t e.2 (edgeFrame (words s₀.mem) r e)
      rw [htaken, hfreed, ih.1, ih.2]
      exact ⟨rfl, rfl⟩

/-- The freed frames are on the stack, when they are distinct and were not on it before. -/
theorem Frees.stacked (h : Frees r s₀ es s) {fs : List Nat} (hfs : Stacked fs s₀)
    (hnodup : (es.map (edgeFrame (words s₀.mem) r) ++ fs).Nodup)
    (hne : ∀ e ∈ es, p2v (frame (edgeFrame (words s₀.mem) r e)) ≠ 0)
    (htables : ∀ e ∈ es, ∀ t, walk (words s₀.mem) r e.1 = some t → t ∉ fs) :
  Stacked (es.map (edgeFrame (words s₀.mem) r) ++ fs) s
  := by
  induction h with
  | refl => exact hfs
  | @step es s e t h ht _ _ hframe ih =>
      rw [List.map_cons, List.cons_append, List.nodup_cons] at hnodup
      rw [List.forall_mem_cons] at hne htables
      have hold := ih hnodup.2 hne.2 htables.2
      have hlt := edgeFrame_lt (r := r) (m := s₀.mem) e
      have hpush : Stacked ((e :: es).map (edgeFrame (words s₀.mem) r) ++ fs)
          (pmmFree s (frame (edgeFrame (words s₀.mem) r e))) := by
        have hfree := hold.free hlt
        rw [stripFlags_frame, frame_div] at hfree
        apply hfree hne.1 hnodup.1
      rw [freeEntry]
      apply stacked_source.setEntry hpush _ (by decide)
      rw [List.mem_append]
      rintro (hmem | hmem)
      · apply hframe hmem
      · apply htables.1 t ht hmem

theorem Frees.hasEdge (h : Frees r s₀ es s) :
  ∀ e ∈ es, HasEdge (words s₀.mem) r e
  := by
  induction h with
  | refl => simp
  | step _ ht hne _ _ ih => exact List.forall_mem_cons.mpr ⟨⟨_, ht, hne⟩, ih⟩

end Frees

/-! ### The loops of `vmm_free_P4` -/

/-- The edge to a table below the root. -/
theorem hasEdge_of_walk {T : Words} {r t : Nat} {q : List (Fin 512)} {i : Fin 512}
    (h : walk T r (q ++ [i]) = some t) :
  HasEdge T r (q, i) ∧ edgeFrame T r (q, i) = t
  := by
  rw [walk_concat] at h
  obtain ⟨u, hu, hchild⟩ := Option.bind_eq_some_iff.mp h
  rw [child] at hchild
  split_ifs at hchild with hzero
  rw [not_or] at hzero
  refine ⟨⟨u, hu, hzero.1⟩, ?_⟩
  rw [edgeFrame_eq hu]
  apply Option.some.inj hchild

/-- The user half of the address space `r` is a tree: the frame of an edge is a table at the path
of the edge only, and it is one above the last level. -/
structure UserTree (T : Words) (r : Nat) : Prop where
  unique : ∀ {e q}, HasEdge T r e → e.User → q.length ≤ 3 → q.head? ≠ some 511 →
    walk T r q = some (edgeFrame T r e) → q = e.path
  table : ∀ {e}, HasEdge T r e → e.User → e.1.length ≤ 2 → walk T r e.path = some (edgeFrame T r e)

/-- A table of the user half has one path. -/
theorem UserTree.path_unique {T : Words} {r t : Nat} {p q : List (Fin 512)} (h : UserTree T r)
    (hp : p.length ≤ 3) (hp' : p.head? ≠ some 511) (hq : q.length ≤ 3) (hq' : q.head? ≠ some 511)
    (ht : walk T r p = some t) (ht' : walk T r q = some t) :
  p = q
  := by
  have hconcat : ∀ {l l' i}, (l ++ [i]).length ≤ 3 → (l ++ [i]).head? ≠ some 511 →
      l'.length ≤ 3 → l'.head? ≠ some 511 → walk T r (l ++ [i]) = some t →
      walk T r l' = some t → l' = l ++ [i] := by
    intro l l' i hlen hhead hlen' hhead' hwalk hwalk'
    obtain ⟨hedge, hframe⟩ := hasEdge_of_walk hwalk
    have hshort : l.length ≤ 3 := by
      rw [List.length_append] at hlen
      omega
    apply h.unique hedge ⟨hshort, hhead⟩ hlen' hhead'
    rw [hframe, hwalk']
  induction p using List.reverseRecOn with
  | nil =>
      induction q using List.reverseRecOn with
      | nil => rfl
      | append_singleton q i _ => exact hconcat hq hq' hp hp' ht' ht
  | append_singleton p i _ => exact (hconcat hp hp' hq hq' ht ht').symm

/-- No edge is on the path `q` or passes below it. -/
def Apart (es : List Edge) (q : List (Fin 512)) : Prop :=
  ∀ e ∈ es, ¬ e.path <+: q ∧ ¬ q <+: e.path

/-- An edge that is not on a path does not end above the last edge of the path. -/
theorem Edge.ne_of_not_prefix {q : List (Fin 512)} {i : Fin 512} {e : Edge}
    (hnot : ¬ e.path <+: q ++ [i]) :
  e.path ≠ q ∧ e ≠ (q, i)
  := by
  constructor
  · rintro rfl
    apply hnot
    apply List.prefix_append
  · rintro rfl
    apply hnot
    apply List.prefix_refl

theorem Edge.path_eq {q : List (Fin 512)} {i : Fin 512} {e : Edge} :
  q ++ [i] = e.path ↔ e = (q, i)
  := by
  constructor
  · intro heq
    obtain ⟨hpath, hlast⟩ := List.append_inj' heq rfl
    have hlast' : i = e.2 := by simpa using hlast
    rw [hpath, hlast']
  · rintro rfl
    rfl

/-- The edges under an entry: its own one and those of the tables below it. -/
theorem Edge.under_iff {q : List (Fin 512)} {i : Fin 512} {e : Edge} :
  q ++ [i] <+: e.path ↔ e = (q, i) ∨ q ++ [i] <+: e.1
  := by
  rw [← Edge.path_eq]
  apply List.prefix_concat_iff

/-- There are no edges under an entry that is zero. -/
theorem HasEdge.not_under {T : Words} {r t : Nat} {q : List (Fin 512)} {i : Fin 512} {e : Edge}
    (h : HasEdge T r e) (ht : walk T r q = some t) (hzero : T t i = 0) :
  ¬ q ++ [i] <+: e.path
  := by
  obtain ⟨u, hu, hne⟩ := h
  rw [Edge.under_iff]
  rintro (rfl | ⟨l, hl⟩)
  · obtain rfl := Option.some.inj (ht.symm.trans hu)
    apply hne hzero
  · rw [← hl, walk_append, walk_concat, ht, Option.bind_some, hzero] at hu
    cases hu

/-- After the entry `i` of a table the loop is apart from its other entries. -/
theorem Apart.after {q : List (Fin 512)} {i j : Fin 512} {below es : List Edge} (hij : i ≠ j)
    (hunder : ∀ e ∈ below, q ++ [i] <+: e.1) (hes : Apart es (q ++ [j])) :
  Apart ((q, i) :: (below ++ es)) (q ++ [j])
  := by
  have hsplit : ∀ l, q ++ [i] <+: l → ¬ q ++ [j] <+: l := by
    intro l hl hl'
    have hle := List.prefix_of_prefix_length_le hl hl' (by simp)
    have heq := hle.eq_of_length (by simp)
    apply hij
    simpa using heq
  have hapart : ∀ e : Edge, q ++ [i] <+: e.path → ¬ e.path <+: q ++ [j] ∧ ¬ q ++ [j] <+: e.path := by
    intro e he
    refine ⟨?_, hsplit _ he⟩
    intro hprefix
    apply hsplit _ (he.trans hprefix) (List.prefix_refl _)
  intro e he
  obtain rfl | he := List.mem_cons.mp he
  · apply hapart
    apply List.prefix_refl
  · obtain he | he := List.mem_append.mp he
    · apply hapart
      apply (hunder e he).trans (List.prefix_append _ _)
    · apply hes e he

/-- What is apart from a path is apart from the paths below it. -/
theorem Apart.below {es : List Edge} {q : List (Fin 512)} (h : Apart es q) (i : Fin 512) :
  Apart es (q ++ [i])
  := by
  intro e he
  obtain ⟨hnot, hnot'⟩ := h e he
  constructor
  · intro hprefix
    obtain heq | hprefix := List.prefix_concat_iff.mp hprefix
    · apply hnot'
      rw [heq]
      apply List.prefix_append
    · apply hnot hprefix
  · intro hprefix
    apply hnot' ((List.prefix_append q [i]).trans hprefix)

/-- One more entry has been freed. -/
theorem Frees.next {r t : Nat} {s₀ s : Machine} {es : List Edge} {q : List (Fin 512)} {i : Fin 512}
    (h : Frees r s₀ es s) (ht : walk (words s₀.mem) r q = some t) (hne : words s₀.mem t i ≠ 0)
    (he : (q, i) ∉ es) (hself : t ≠ words s₀.mem t i / pageSize)
    (hframe : t ∉ es.map (edgeFrame (words s₀.mem) r)) :
  Frees r s₀ ((q, i) :: es) (freeEntry s t i (words s₀.mem t i / pageSize))
  := by
  have heq : edgeFrame (words s₀.mem) r (q, i) = words s₀.mem t i / pageSize := edgeFrame_eq ht
  rw [← heq] at hself ⊢
  have hnot : t ∉ ((q, i) :: es).map (edgeFrame (words s₀.mem) r) := by
    rw [List.map_cons, List.mem_cons, not_or]
    exact ⟨hself, hframe⟩
  exact Frees.step (e := (q, i)) h ht hne he hnot

theorem freeEntries_zero {below : Machine → Nat → Machine} {s : Machine} {t : Nat} {i : Fin 512}
    (is : List (Fin 512)) (h : words s.mem t i = 0) :
  freeEntries below s (frame t) (i :: is) = freeEntries below s (frame t) is
  := by
  rw [freeEntries, entry_frame, if_neg (not_not_intro h)]

theorem freeEntries_ne {below : Machine → Nat → Machine} {s : Machine} {t v : Nat} {i : Fin 512}
    (is : List (Fin 512)) (h : words s.mem t i = v) (hne : v ≠ 0)
    (hbelow : words (below s (frame (v / pageSize))).mem t i = v) :
  freeEntries below s (frame t) (i :: is)
    = freeEntries below (freeEntry (below s (frame (v / pageSize))) t i (v / pageSize)) (frame t) is
  := by
  rw [freeEntries, entry_frame, h, if_pos hne]
  simp only [stripFlags_eq, entry_frame]
  rw [hbelow]
  rfl

section Loops

variable {r : Nat} {s₀ : Machine} (hT : UserTree (words s₀.mem) r)

include hT

/-- The entry that the loop looks at has not been changed, while the edges it has freed are apart
from it. -/
theorem Frees.entry_eq {s : Machine} {es : List Edge} {q : List (Fin 512)} {i : Fin 512} {t : Nat}
    (h : Frees r s₀ es s) (huser : ∀ e ∈ es, e.User) (hq : q.length ≤ 3) (hq' : q.head? ≠ some 511)
    (ht : walk (words s₀.mem) r q = some t) (hi : ∀ e ∈ es, e.path ≠ q ∧ e ≠ (q, i)) :
  words s.mem t i = words s₀.mem t i ∧ t ∉ es.map (edgeFrame (words s₀.mem) r)
  := by
  have hnot : t ∉ es.map (edgeFrame (words s₀.mem) r) := by
    rw [List.mem_map]
    rintro ⟨e, he, rfl⟩
    apply (hi e he).1
    apply (hT.unique (h.hasEdge e he) (huser e he) hq hq' ht).symm
  refine ⟨h.words_eq ?_ (Or.inl hnot), hnot⟩
  intro e he hwalk heq
  have hhead : e.1.head? ≠ some 511 := by
    intro hhead
    apply (huser e he).2
    rw [Edge.path, List.head?_append, hhead]
    rfl
  have hpath := hT.path_unique (huser e he).1 hhead hq hq' hwalk ht
  apply (hi e he).2
  rw [← hpath, ← heq]

/-- The entry that the loop looks at next has not been changed. -/
theorem Frees.entry_apart {s : Machine} {es : List Edge} {q : List (Fin 512)} {i : Fin 512} {t : Nat}
    (h : Frees r s₀ es s) (huser : ∀ e ∈ es, e.User) (hi : Edge.User (q, i))
    (ht : walk (words s₀.mem) r q = some t) (hapart : Apart es (q ++ [i])) :
  words s.mem t i = words s₀.mem t i ∧ t ∉ es.map (edgeFrame (words s₀.mem) r)
  := by
  apply h.entry_eq hT huser hi.1 hi.head ht
  intro e he
  exact Edge.ne_of_not_prefix (hapart e he).1

omit hT in
/-- The edges below a user entry are user edges. -/
theorem Edge.User.below {q : List (Fin 512)} {i : Fin 512} {e : Edge} (hi : Edge.User (q, i))
    (hlen : e.1.length ≤ 3) (hunder : q ++ [i] <+: e.1) :
  e.User
  := by
  obtain ⟨l, hl⟩ := hunder
  refine ⟨hlen, ?_⟩
  rw [Edge.path, ← hl, List.append_assoc, List.head?_append_of_ne_nil _ (by simp)]
  exact hi.2

/-- The table below an entry above the last level. -/
theorem UserTree.walk_entry {level : Nat} {q : List (Fin 512)} {i : Fin 512} {t : Nat}
    (hlevel : level + 1 + q.length = 4) (hi : Edge.User (q, i))
    (ht : walk (words s₀.mem) r q = some t) (hne : words s₀.mem t i ≠ 0) :
  level = 0 ∨ walk (words s₀.mem) r (q ++ [i]) = some (words s₀.mem t i / pageSize)
  := by
  by_cases hlast : level = 0
  · left
    apply hlast
  · right
    have hframe : edgeFrame (words s₀.mem) r (q, i) = words s₀.mem t i / pageSize := edgeFrame_eq ht
    rw [← hframe]
    have hedge : HasEdge (words s₀.mem) r (q, i) := ⟨t, ht, hne⟩
    have hshort : q.length ≤ 2 := by omega
    apply hT.table hedge hi hshort

/-- One turn of a loop: when what is below the entry `i` has been freed, the entry is as it was,
its table has not been freed, and freeing its frame and clearing it leads to the next turn. -/
theorem Frees.turn {s : Machine} {es below : List Edge} {q : List (Fin 512)} {i : Fin 512}
    {is : List (Fin 512)} {t : Nat} (h : Frees r s₀ (below ++ es) s) (hesUser : ∀ e ∈ es, e.User)
    (hi : Edge.User (q, i)) (ht : walk (words s₀.mem) r q = some t) (hne : words s₀.mem t i ≠ 0)
    (hbelow : ∀ e ∈ below, e.1.length ≤ 3 ∧ q ++ [i] <+: e.1) (his : i ∉ is)
    (hapart : ∀ j ∈ i :: is, Apart es (q ++ [j])) :
  words s.mem t i = words s₀.mem t i ∧ t ∉ (below ++ es).map (edgeFrame (words s₀.mem) r)
    ∧ Frees r s₀ ((q, i) :: (below ++ es)) (freeEntry s t i (words s₀.mem t i / pageSize))
    ∧ (∀ e ∈ (q, i) :: (below ++ es), Edge.User e)
    ∧ ∀ j ∈ is, Apart ((q, i) :: (below ++ es)) (q ++ [j])
  := by
  rw [List.forall_mem_cons] at hapart
  have hedge : HasEdge (words s₀.mem) r (q, i) := ⟨t, ht, hne⟩
  have huser : ∀ e ∈ below ++ es, e.User := by
    intro e he
    obtain he | he := List.mem_append.mp he
    · exact hi.below (hbelow e he).1 (hbelow e he).2
    · exact hesUser e he
  have hout : ∀ e ∈ below ++ es, e.path ≠ q ∧ e ≠ (q, i) := by
    intro e he
    obtain he | he := List.mem_append.mp he
    · have hlen := (hbelow e he).2.length_le
      rw [List.length_append, List.length_singleton] at hlen
      constructor
      · rintro rfl
        rw [Edge.path, List.length_append] at hlen
        omega
      · rintro rfl
        simp only at hlen
        omega
    · exact Edge.ne_of_not_prefix (hapart.1 e he).1
  obtain ⟨hentry, hnot⟩ := h.entry_eq hT huser hi.1 hi.head ht hout
  refine ⟨hentry, hnot, ?_, List.forall_mem_cons.mpr ⟨hi, huser⟩, ?_⟩
  · apply h.next ht hne _ _ hnot
    · intro hmem
      apply (hout _ hmem).2 rfl
    · intro heq
      have hframe : edgeFrame (words s₀.mem) r (q, i) = words s₀.mem t i / pageSize :=
        edgeFrame_eq ht
      rw [← hframe] at heq
      have hpath := hT.unique hedge hi hi.1 hi.head (heq ▸ ht)
      have hlen := congrArg List.length hpath
      simp [Edge.path] at hlen
  · intro j hj
    apply Apart.after _ (fun e he => (hbelow e he).2) (hapart.2 j hj)
    rintro rfl
    apply his hj

/-- What a loop over the entries `is` of the table at the path `q` does, when freeing what is
below one of these entries is done right. -/
theorem freeEntries_spec {level : Nat} {q : List (Fin 512)} {t : Nat}
    (hlevel : level + 1 + q.length = 4) (ht : walk (words s₀.mem) r q = some t)
    (hbelow : ∀ {i : Fin 512} {f : Nat} {s : Machine} {es : List Edge},
      (q ++ [i]).head? ≠ some 511 → (level = 0 ∨ walk (words s₀.mem) r (q ++ [i]) = some f) →
      Frees r s₀ es s → (∀ e ∈ es, e.User) → Apart es (q ++ [i]) →
      ∃ new, Frees r s₀ (new ++ es) (freeTable level s (frame f))
        ∧ ∀ e, e ∈ new ↔ HasEdge (words s₀.mem) r e ∧ e.1.length ≤ 3 ∧ q ++ [i] <+: e.1)
    {is : List (Fin 512)} {s : Machine} {es : List Edge} (his : is.Nodup)
    (huser : ∀ i ∈ is, (q ++ [i]).head? ≠ some 511) (hes : Frees r s₀ es s)
    (hesUser : ∀ e ∈ es, e.User) (hapart : ∀ i ∈ is, Apart es (q ++ [i])) :
  ∃ new, Frees r s₀ (new ++ es) (freeEntries (freeTable level) s (frame t) is)
    ∧ ∀ e, e ∈ new ↔ HasEdge (words s₀.mem) r e ∧ e.1.length ≤ 3 ∧ ∃ i ∈ is, q ++ [i] <+: e.path
  := by
  induction is generalizing s es with
  | nil => exact ⟨[], hes, by simp⟩
  | cons i is ih =>
      have hall := hapart
      rw [List.nodup_cons] at his
      rw [List.forall_mem_cons] at huser hapart
      have hq : q.length ≤ 3 := by omega
      have hi : Edge.User (q, i) := ⟨hq, huser.1⟩
      obtain ⟨hentry, -⟩ := hes.entry_apart hT hesUser hi ht hapart.1
      by_cases hzero : words s₀.mem t i = 0
      · obtain ⟨new, hnew, hmem⟩ := ih his.2 huser.2 hes hesUser hapart.2
        refine ⟨new, ?_, ?_⟩
        · rw [freeEntries_zero is (hentry.trans hzero)]
          apply hnew
        intro e
        rw [hmem e]
        constructor
        · rintro ⟨hedge, hlen, j, hj, hprefix⟩
          exact ⟨hedge, hlen, j, List.mem_cons_of_mem i hj, hprefix⟩
        · rintro ⟨hedge, hlen, j, hj, hprefix⟩
          obtain rfl | hj := List.mem_cons.mp hj
          · exact absurd hprefix (hedge.not_under ht hzero)
          · exact ⟨hedge, hlen, j, hj, hprefix⟩
      · have hedge : HasEdge (words s₀.mem) r (q, i) := ⟨t, ht, hzero⟩
        have hwalk := hT.walk_entry hlevel hi ht hzero
        obtain ⟨below, hfrees, hbelowMem⟩ :=
          hbelow huser.1 hwalk hes hesUser hapart.1
        obtain ⟨hentry', -, hstep, hstepUser, hapart'⟩ := hfrees.turn hT hesUser hi ht hzero
          (fun e he => ((hbelowMem e).mp he).2) his.1 hall
        obtain ⟨new, hnew, hmem⟩ := ih his.2 huser.2 hstep hstepUser hapart'
        refine ⟨new ++ (q, i) :: below, ?_, ?_⟩
        · rw [freeEntries_ne is hentry hzero hentry', List.append_assoc]
          apply hnew
        · intro e
          rw [List.mem_append, List.mem_cons, hmem e, hbelowMem e]
          constructor
          · rintro (⟨hedge', hlen, j, hj, hprefix⟩ | rfl | ⟨hedge', hlen, hprefix⟩)
            · exact ⟨hedge', hlen, j, List.mem_cons_of_mem i hj, hprefix⟩
            · exact ⟨hedge, hq, i, List.mem_cons_self, Edge.under_iff.mpr (Or.inl rfl)⟩
            · exact ⟨hedge', hlen, i, List.mem_cons_self, Edge.under_iff.mpr (Or.inr hprefix)⟩
          · rintro ⟨hedge', hlen, j, hj, hprefix⟩
            obtain rfl | hj := List.mem_cons.mp hj
            · right
              obtain rfl | hprefix := Edge.under_iff.mp hprefix
              · left
                rfl
              · right
                exact ⟨hedge', hlen, hprefix⟩
            · left
              exact ⟨hedge', hlen, j, hj, hprefix⟩

/-- The loops inside a table free the frames of all edges below it. -/
theorem freeTable_spec :
  ∀ {level : Nat} {q : List (Fin 512)} {t : Nat} {s : Machine} {es : List Edge},
    level + q.length = 4 → q.head? ≠ some 511 → q ≠ [] →
    (level = 0 ∨ walk (words s₀.mem) r q = some t) → Frees r s₀ es s → (∀ e ∈ es, e.User) →
    Apart es q →
    ∃ new, Frees r s₀ (new ++ es) (freeTable level s (frame t))
      ∧ ∀ e, e ∈ new ↔ HasEdge (words s₀.mem) r e ∧ e.1.length ≤ 3 ∧ q <+: e.1
  | 0, q, t, s, es, hlevel, _, _, _, hes, _, _ => by
      refine ⟨[], hes, ?_⟩
      intro e
      simp only [List.not_mem_nil, false_iff]
      rintro ⟨-, hlen, hprefix⟩
      have := hprefix.length_le
      omega
  | level + 1, q, t, s, es, hlevel, hhead, hne, hwalk, hes, hesUser, hapart => by
      have hnext : ∀ i, (q ++ [i]).head? ≠ some 511 := by
        intro i
        rw [List.head?_append_of_ne_nil _ hne]
        apply hhead
      obtain ⟨new, hnew, hmem⟩ := freeEntries_spec hT hlevel
        (hwalk.resolve_left (Nat.succ_ne_zero level))
        (fun hi hw hes hu ha => freeTable_spec
          (by rw [List.length_append, List.length_singleton]; omega) hi (by simp) hw hes hu ha)
        (List.nodup_finRange 512) (fun i _ => hnext i) hes hesUser (fun i _ => hapart.below i)
      refine ⟨new, hnew, ?_⟩
      intro e
      rw [hmem e]
      apply and_congr_right
      intro _
      apply and_congr_right
      intro _
      constructor
      · rintro ⟨i, -, hprefix⟩
        obtain rfl | hprefix := Edge.under_iff.mp hprefix
        · apply List.prefix_refl
        · apply (List.prefix_append q [i]).trans hprefix
      · rintro ⟨l, hl⟩
        have hpath : e.path = q ++ (l ++ [e.2]) := by
          rw [Edge.path, ← hl, List.append_assoc]
        cases hl' : l ++ [e.2] with
        | nil => simp at hl'
        | cons i l' =>
            refine ⟨i, List.mem_finRange i, ?_⟩
            rw [hpath, hl']
            exact ⟨l', by simp⟩

end Loops

theorem mem_userIndices {i : Fin 512} :
  i ∈ userIndices ↔ i ≠ 511
  := by
  have hoffset : p4Offset kernelOffset = 511 := by decide
  rw [userIndices, List.mem_filter, hoffset, decide_eq_true_iff]
  have hi := i.isLt
  constructor
  · rintro ⟨-, hlt⟩ rfl
    exact absurd hlt (lt_irrefl _)
  · intro hne
    refine ⟨List.mem_finRange i, ?_⟩
    have hval : i.val ≠ 511 := fun hval => hne (Fin.ext hval)
    rw [Fin.lt_def]
    have : (511 : Fin 512).val = 511 := rfl
    omega

theorem userIndices_nodup :
  userIndices.Nodup
  := by
  rw [userIndices]
  apply (List.nodup_finRange 512).filter

/-- The loop of `vmm_free_P4` starts paths of the user half. -/
theorem head_of_userIndices :
  ∀ i ∈ userIndices, ([] ++ [i] : List (Fin 512)).head? ≠ some 511
  := by
  intro i hi hhead
  apply mem_userIndices.mp hi
  apply Option.some.inj hhead

/-- `vmm_free_P4` frees the frame of every edge of the user half once, and then the P4. -/
theorem vmmFreeP4_spec {r : Nat} {s : Machine} (hT : UserTree (words s.mem) r) :
  ∃ es s', Frees r s es s' ∧ vmmFreeP4 s (frame r) = pmmFree s' (frame r)
    ∧ ∀ e, e ∈ es ↔ HasEdge (words s.mem) r e ∧ e.User
  := by
  have hlevel : 3 + 1 + ([] : List (Fin 512)).length = 4 := rfl
  obtain ⟨es, hes, hmem⟩ := freeEntries_spec hT hlevel rfl
    (fun hi hw hes hu ha => freeTable_spec hT rfl hi (by simp) hw hes hu ha)
    userIndices_nodup head_of_userIndices .refl (by simp) (by simp [Apart])
  rw [List.append_nil] at hes
  refine ⟨es, freeEntries (freeTable 3) s (frame r) userIndices, hes, ?_, ?_⟩
  · rw [vmmFreeP4]
  · intro e
    rw [hmem e]
    apply and_congr_right
    intro _
    apply and_congr_right
    intro _
    cases hpath : e.path with
    | nil => simp [Edge.path] at hpath
    | cons j l =>
        simp only [List.nil_append, List.cons_prefix_cons, List.nil_prefix, and_true,
          List.head?_cons]
        constructor
        · rintro ⟨i, hi, rfl⟩ heq
          apply mem_userIndices.mp hi
          apply Option.some.inj heq
        · intro hne
          refine ⟨j, mem_userIndices.mpr ?_, rfl⟩
          rintro rfl
          apply hne rfl

end Mem
