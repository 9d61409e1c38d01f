import Mittos64.Mem.Kernel

/-!
# What `vmm_free_P4` reads

`vmm_free_P4` frees the frame of a table after it has gone through the table, and reads the
entry that points to it once more before it does.  `vmmFreeP4Reads` lists the entries it reads,
each with the machine at the time of the read.  When the frames of the address space are
distinct, no table is read after it has been freed, so that the link that `pmm_free` writes to
the first word of a frame is never taken for an entry; and every frame is freed once.
-/

namespace Mem

/-- The reads of a loop over the entries `is` of a table, each with the machine it is made on:
the entry is read before what is below it is freed and once more after that, and in between
there are the `reads` of the table below. -/
def readEntries (below : Machine → Nat → Machine) (reads : Machine → Nat → List (Machine × Nat))
    (s : Machine) (table : Nat) : List (Fin 512) → List (Machine × Nat)
  | [] => []
  | i :: is =>
      if entry s.mem table i ≠ 0 then
        let page := stripFlags (entry s.mem table i)
        let s' := below s page
        let next := pmmFree s' (stripFlags (entry s'.mem table i))
        (s, table) :: (reads s page ++ (s', table)
          :: readEntries below reads (setEntry next table i 0) table is)
      else (s, table) :: readEntries below reads s table is

/-- The reads of the loops inside a table that is `level` levels above the pages. -/
def readTable : Nat → Machine → Nat → List (Machine × Nat)
  | 0, _, _ => []
  | level + 1, s, table =>
      readEntries (freeTable level) (readTable level) s table (List.finRange 512)

/-- The tables that `vmm_free_P4(P4)` reads, each with the machine at the time of the read. -/
def vmmFreeP4Reads (s : Machine) (P4 : Nat) : List (Machine × Nat) :=
  readEntries (freeTable 3) (readTable 3) s P4 userIndices

/-- The table of a read has not been freed since the machine was `s₀`. -/
def Unfreed (r : Nat) (s₀ : Machine) (x : Machine × Nat) : Prop :=
  ∃ es n, Frees r s₀ es x.1 ∧ x.2 = frame n ∧ n ∉ es.map (edgeFrame (words s₀.mem) r)

theorem readEntries_zero {below : Machine → Nat → Machine}
    {reads : Machine → Nat → List (Machine × Nat)} {s : Machine} {t : Nat} {i : Fin 512}
    (is : List (Fin 512)) (h : words s.mem t i = 0) :
  readEntries below reads s (frame t) (i :: is)
    = (s, frame t) :: readEntries below reads s (frame t) is
  := by
  rw [readEntries, entry_frame, if_neg (not_not_intro h)]

theorem readEntries_ne {below : Machine → Nat → Machine}
    {reads : Machine → Nat → List (Machine × Nat)} {s : Machine} {t v : Nat} {i : Fin 512}
    (is : List (Fin 512)) (h : words s.mem t i = v) (hne : v ≠ 0)
    (hbelow : words (below s (frame (v / pageSize))).mem t i = v) :
  readEntries below reads s (frame t) (i :: is)
    = (s, frame t) :: (reads s (frame (v / pageSize)) ++ (below s (frame (v / pageSize)), frame t)
      :: readEntries below reads
        (freeEntry (below s (frame (v / pageSize))) t i (v / pageSize)) (frame t) is)
  := by
  rw [readEntries, entry_frame, h, if_pos hne]
  simp only [stripFlags_eq, entry_frame]
  rw [hbelow]
  rfl

section Loops

variable {r : Nat} {s₀ : Machine} (hT : UserTree (words s₀.mem) r)

include hT

/-- No read of a loop over the entries `is` is of a table that has been freed, when this is so
for the loops below. -/
theorem readEntries_unfreed {level : Nat} {q : List (Fin 512)} {t : Nat}
    (hlevel : level + 1 + q.length = 4) (ht : walk (words s₀.mem) r q = some t)
    (hreads : ∀ {i : Fin 512} {f : Nat} {s : Machine} {es : List Edge},
      (q ++ [i]).head? ≠ some 511 → (level = 0 ∨ walk (words s₀.mem) r (q ++ [i]) = some f) →
      Frees r s₀ es s → (∀ e ∈ es, e.User) → Apart es (q ++ [i]) →
      ∀ x ∈ readTable level s (frame f), Unfreed r s₀ x)
    {is : List (Fin 512)} {s : Machine} {es : List Edge} (his : is.Nodup)
    (huser : ∀ i ∈ is, (q ++ [i]).head? ≠ some 511) (hes : Frees r s₀ es s)
    (hesUser : ∀ e ∈ es, e.User) (hapart : ∀ i ∈ is, Apart es (q ++ [i])) :
  ∀ x ∈ readEntries (freeTable level) (readTable level) s (frame t) is, Unfreed r s₀ x
  := by
  induction is generalizing s es with
  | nil =>
      intro x hx
      cases hx
  | cons i is ih =>
      have hall := hapart
      rw [List.nodup_cons] at his
      rw [List.forall_mem_cons] at huser hapart
      have hi : Edge.User (q, i) := ⟨by simp only; omega, huser.1⟩
      obtain ⟨hentry, hnot⟩ := hes.entry_apart hT hesUser hi ht hapart.1
      have hfirst : Unfreed r s₀ (s, frame t) := ⟨es, t, hes, rfl, hnot⟩
      by_cases hzero : words s₀.mem t i = 0
      · rw [readEntries_zero is (hentry.trans hzero), List.forall_mem_cons]
        exact ⟨hfirst, ih his.2 huser.2 hes hesUser hapart.2⟩
      · have hwalk := hT.walk_entry hlevel hi ht hzero
        have hlen : level + (q ++ [i]).length = 4 := by
          rw [List.length_append, List.length_singleton]
          omega
        obtain ⟨below, hfrees, hbelow⟩ := freeTable_spec hT hlen huser.1 (by simp) hwalk hes
          hesUser hapart.1
        obtain ⟨hentry', hnot', hstep, hstepUser, hapart'⟩ := hfrees.turn hT hesUser hi ht hzero
          (fun e he => ((hbelow e).mp he).2) his.1 hall
        rw [readEntries_ne is hentry hzero hentry', List.forall_mem_cons, List.forall_mem_append,
          List.forall_mem_cons]
        refine ⟨hfirst, hreads huser.1 hwalk hes hesUser hapart.1, ?_,
          ih his.2 huser.2 hstep hstepUser hapart'⟩
        exact ⟨below ++ es, t, hfrees, rfl, hnot'⟩

/-- No read of the loops inside a table is of a table that has been freed. -/
theorem readTable_unfreed :
  ∀ {level : Nat} {q : List (Fin 512)} {t : Nat} {s : Machine} {es : List Edge},
    level + q.length = 4 → q.head? ≠ some 511 → q ≠ [] →
    (level = 0 ∨ walk (words s₀.mem) r q = some t) → Frees r s₀ es s → (∀ e ∈ es, e.User) →
    Apart es q → ∀ x ∈ readTable level s (frame t), Unfreed r s₀ x
  | 0, _, _, _, _, _, _, _, _, _, _, _ => by
      intro x hx
      cases hx
  | level + 1, q, t, s, es, hlevel, hhead, hne, hwalk, hes, hesUser, hapart => by
      have hnext : ∀ i, (q ++ [i]).head? ≠ some 511 := by
        intro i
        rw [List.head?_append_of_ne_nil _ hne]
        apply hhead
      exact readEntries_unfreed hT hlevel (hwalk.resolve_left (Nat.succ_ne_zero level))
        (fun hi hw hes hu ha => readTable_unfreed
          (by rw [List.length_append, List.length_singleton]; omega) hi (by simp) hw hes hu ha)
        (List.nodup_finRange 512) (fun i _ => hnext i) hes hesUser (fun i _ => hapart.below i)

end Loops

/-- `vmm_free_P4` reads no table that it has freed. -/
theorem vmmFreeP4Reads_unfreed {r : Nat} {s : Machine} (hT : UserTree (words s.mem) r) :
  ∀ x ∈ vmmFreeP4Reads s (frame r), Unfreed r s x
  := by
  have hlevel : 3 + 1 + ([] : List (Fin 512)).length = 4 := rfl
  exact readEntries_unfreed hT hlevel rfl
    (fun hi hw hes hu ha => readTable_unfreed hT rfl hi (by simp) hw hes hu ha)
    userIndices_nodup head_of_userIndices .refl (by simp) (by simp [Apart])

/-! ### Address spaces of distinct frames -/

/-- The P4 of the address space `r`, the tables of its user half and the frames of its user pages
are distinct frames, and its tables point to tables. -/
structure DistinctFrames (T : Words) (r : Nat) : Prop where
  distinct : ∀ {e e' : Edge}, HasEdge T r e → e.User → HasEdge T r e' → e'.User →
    edgeFrame T r e = edgeFrame T r e' → e = e'
  root : ∀ {e : Edge}, HasEdge T r e → e.User → edgeFrame T r e ≠ r
  small : ∀ {e : Edge} {t : Nat}, walk T r e.1 = some t → e.User → e.1.length ≤ 2 → isHuge (T t e.2) = false

/-- The user half of an address space of distinct frames is a tree. -/
theorem DistinctFrames.userTree {T : Words} {r : Nat} (h : DistinctFrames T r) :
  UserTree T r
  := by
  constructor
  · intro e q he huser hq hhead hwalk
    induction q using List.reverseRecOn with
    | nil => exact absurd (Option.some.inj hwalk).symm (h.root he huser)
    | append_singleton q i _ =>
        obtain ⟨hedge, hframe⟩ := hasEdge_of_walk hwalk
        rw [List.length_append] at hq
        have huser' : Edge.User (q, i) := ⟨Nat.le_of_add_right_le hq, hhead⟩
        rw [← h.distinct hedge huser' he huser hframe]
        rfl
  · intro e he huser hlen
    obtain ⟨t, ht, hne⟩ := he
    rw [Edge.path, walk_concat, ht, edgeFrame_eq ht]
    exact child_of_ne hne (h.small ht huser hlen)

/-- `vmm_free_P4` pushes each frame of an address space of distinct frames once, and no other, and
changes no other frame. -/
theorem DistinctFrames.vmmFreeP4 {r : Nat} {s : Machine} (h : DistinctFrames (words s.mem) r)
    (hr : frame r < 2 ^ 64) :
  ∃ fs : List Nat, fs.Nodup ∧ (∀ f, f ∈ fs ↔ UserFrame (words s.mem) r f)
    ∧ (vmmFreeP4 s (frame r)).freed = fs ++ s.freed ∧ (vmmFreeP4 s (frame r)).taken = s.taken
    ∧ (∀ n, ¬ UserFrame (words s.mem) r n →
        words (vmmFreeP4 s (frame r)).mem n = words s.mem n)
    ∧ ∀ free, Stacked free s → (∀ f ∈ free, ¬ UserFrame (words s.mem) r f) →
        (∀ f, UserFrame (words s.mem) r f → p2v (frame f) ≠ 0) →
        Stacked (fs ++ free) (Mem.vmmFreeP4 s (frame r))
  := by
  obtain ⟨es, hes, hnodup, htaken, hfreed, hwords, hstack⟩ := h.userTree.vmmFreeP4 hr
  have hmem : ∀ f, f ∈ r :: es.map (edgeFrame (words s.mem) r) ↔ UserFrame (words s.mem) r f := by
    intro f
    rw [List.mem_cons, List.mem_map, UserFrame]
    apply or_congr_right
    constructor
    · rintro ⟨e, he, rfl⟩
      obtain ⟨hedge, huser⟩ := (hes e).mp he
      exact ⟨e, hedge, huser, rfl⟩
    · rintro ⟨e, hedge, huser, rfl⟩
      exact ⟨e, (hes e).mpr ⟨hedge, huser⟩, rfl⟩
  have hframes : (r :: es.map (edgeFrame (words s.mem) r)).Nodup := by
    rw [List.nodup_cons]
    constructor
    · intro hroot
      obtain ⟨e, he, heq⟩ := List.mem_map.mp hroot
      obtain ⟨hedge, huser⟩ := (hes e).mp he
      exact h.root hedge huser heq
    · apply List.Nodup.map_on _ hnodup
      intro e he e' he' heq
      obtain ⟨hedge, huser⟩ := (hes e).mp he
      obtain ⟨hedge', huser'⟩ := (hes e').mp he'
      exact h.distinct hedge huser hedge' huser' heq
  refine ⟨_, hframes, hmem, hfreed, htaken, hwords, ?_⟩
  intro free hfree hnot hne
  apply hstack free hfree hne
  apply List.nodup_append.mpr
  refine ⟨hframes, hfree.2.nodup, ?_⟩
  rintro f hf g hg rfl
  exact hnot f hg ((hmem f).mp hf)

/-- `vmm_free_P4` on an address space whose P4, tables and user pages are distinct frames pushes
each of these frames once, and no other; when they are not on the free stack, the new stack is
these frames on the old one; and no table is read after it has been freed. -/
theorem vmmFreeP4_exact {r : Nat} {s : Machine} (h : DistinctFrames (words s.mem) r)
    (hr : frame r < 2 ^ 64) :
  ∃ fs : List Nat, fs.Nodup ∧ (∀ f, f ∈ fs ↔ UserFrame (words s.mem) r f)
    ∧ (vmmFreeP4 s (frame r)).freed = fs ++ s.freed ∧ (vmmFreeP4 s (frame r)).taken = s.taken
    ∧ (∀ free, Stacked free s → (∀ f ∈ free, ¬ UserFrame (words s.mem) r f) →
        (∀ f, UserFrame (words s.mem) r f → p2v (frame f) ≠ 0) →
        Stacked (fs ++ free) (vmmFreeP4 s (frame r)))
    ∧ ∀ x ∈ vmmFreeP4Reads s (frame r), ∃ n L, x.2 = frame n ∧ x.1.freed = L ++ s.freed ∧ n ∉ L
  := by
  obtain ⟨fs, hnodup, hmem, hfreed, htaken, -, hstack⟩ := h.vmmFreeP4 hr
  refine ⟨fs, hnodup, hmem, hfreed, htaken, hstack, ?_⟩
  intro x hx
  obtain ⟨es, n, hfrees, htable, hnot⟩ := vmmFreeP4Reads_unfreed h.userTree x hx
  exact ⟨n, _, htable, hfrees.history.2, hnot⟩

/-- The words of one path of tables, from the P4 in the frame 1 to the page in the frame 5. -/
def onePathWords (n : Nat) (i : Fin 512) : Nat :=
  if 1 ≤ n ∧ n ≤ 4 ∧ i = 0 then addFlags (frame (n + 1)) tableFlags else 0

/-- A machine with one address space of one page, and no free frame. -/
def onePathMachine : Machine where
  mem := ofWords onePathWords
  pmmRunning := true
  pmmPos := 0
  pmmStack := 0
  taken := [5, 4, 3, 2, 1]
  freed := []

theorem words_onePathMachine :
  words onePathMachine.mem = onePathWords
  := by
  funext n i
  apply words_ofWords
  rw [onePathWords]
  split_ifs with h
  · apply addFlags_lt
    rw [frame, pageSize]
    omega
  · decide

/-- The entries of the path. -/
theorem onePathWords_ne {n : Nat} {i : Fin 512} (h : onePathWords n i ≠ 0) :
  i = 0 ∧ child (onePathWords n i) = some (n + 1) ∧ onePathWords n i / pageSize = n + 1
    ∧ isHuge (onePathWords n i) = false
  := by
  rw [onePathWords] at h ⊢
  split_ifs at h ⊢ with hpath
  · obtain ⟨-, hhuge, hchild⟩ := child_addFlags (n + 1)
    refine ⟨hpath.2.2, hchild, ?_, hhuge⟩
    rw [addFlags_div, frame_div]
  · exact absurd rfl h

/-- The tables of the path. -/
theorem walk_onePathWords {p : List (Fin 512)} {t : Nat} (h : walk onePathWords 1 p = some t) :
  p = List.replicate p.length 0 ∧ t = p.length + 1
  := by
  induction p using List.reverseRecOn generalizing t with
  | nil => exact ⟨rfl, (Option.some.inj h).symm⟩
  | append_singleton p i ih =>
      rw [walk_concat] at h
      obtain ⟨u, hu, hchild⟩ := Option.bind_eq_some_iff.mp h
      obtain ⟨hp, rfl⟩ := ih hu
      have hne : onePathWords (p.length + 1) i ≠ 0 := by
        intro hzero
        rw [hzero] at hchild
        cases hchild
      obtain ⟨rfl, hnext, -⟩ := onePathWords_ne hne
      rw [hnext] at hchild
      rw [List.length_append, List.length_singleton, List.replicate_succ', ← hp]
      exact ⟨rfl, (Option.some.inj hchild).symm⟩

theorem distinctFrames_onePath :
  DistinctFrames onePathWords 1
  := by
  have hedge : ∀ {e : Edge}, HasEdge onePathWords 1 e →
      e = (List.replicate e.1.length 0, 0) ∧ edgeFrame onePathWords 1 e = e.1.length + 2 := by
    rintro ⟨q, i⟩ ⟨t, ht, hne⟩
    obtain ⟨hq, rfl⟩ := walk_onePathWords ht
    obtain ⟨rfl, -, hframe, -⟩ := onePathWords_ne hne
    rw [edgeFrame_eq ht, ← hq]
    exact ⟨rfl, hframe⟩
  constructor
  · intro e e' he _ he' _ heq
    obtain ⟨hpath, hframe⟩ := hedge he
    obtain ⟨hpath', hframe'⟩ := hedge he'
    rw [hpath, hpath', Nat.add_right_cancel (hframe.symm.trans (heq.trans hframe'))]
  · intro e he _
    rw [(hedge he).2]
    omega
  · intro e t _ _ _
    by_cases hne : onePathWords t e.2 = 0
    · rw [hne]
      rfl
    · exact (onePathWords_ne hne).2.2.2

/-- Freeing the address space of one page. -/
theorem vmmFreeP4_exact_onePath :
  DistinctFrames (words onePathMachine.mem) 1 ∧ frame 1 < 2 ^ 64
    ∧ ∃ fs : List Nat, fs.Nodup ∧ (∀ f, f ∈ fs ↔ UserFrame (words onePathMachine.mem) 1 f)
      ∧ (vmmFreeP4 onePathMachine (frame 1)).freed = fs ++ onePathMachine.freed
  := by
  have hdistinct : DistinctFrames (words onePathMachine.mem) 1 := by
    rw [words_onePathMachine]
    exact distinctFrames_onePath
  have hlt : frame 1 < 2 ^ 64 := by decide
  obtain ⟨fs, hnodup, hmem, hfreed, -⟩ := vmmFreeP4_exact hdistinct hlt
  exact ⟨hdistinct, hlt, fs, hnodup, hmem, hfreed⟩

end Mem
