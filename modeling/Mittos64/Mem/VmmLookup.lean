import Mittos64.Mem.VmmSpec

/-!
# Reading a page after writing one

A family of address spaces is well formed when its tables are distinct, but for those under
the entry 511 of the P4, which address spaces may share.  `vmm_set_page` keeps such a family
well formed, and changes the entry of one page only.
-/

namespace Mem

open Trie (Forest Node)

/-- The tables of the address spaces `roots`: the P4 and three levels below it. -/
def Tables (roots : Nat → Prop) (r : Nat) (p : List (Fin 512)) : Prop :=
  roots r ∧ p.length ≤ 3

/-- The path starts with the entry of the kernel. -/
def UnderKernel (p : List (Fin 512)) : Prop :=
  p.head? = some 511

theorem UnderKernel.append {p : List (Fin 512)} (j : Fin 512) (h : UnderKernel p) :
  UnderKernel (p ++ [j])
  := by
  rw [UnderKernel, List.head?_append, h]
  rfl

theorem tables_closed {roots : Nat → Prop} {r : Nat} {p : List (Fin 512)} {i : Fin 512}
    (h : Tables roots r (p ++ [i])) :
  Tables roots r p
  := by
  obtain ⟨hr, hlen⟩ := h
  rw [List.length_append] at hlen
  exact ⟨hr, by omega⟩

section Lookup

variable {Dom : Nat → List (Fin 512) → Prop} {Shared : List (Fin 512) → Prop} {r t a v : Nat}
  {T T' : Words} {new : List Nat}

theorem tablePath_length (a : Nat) :
  (tablePath a).length = 3
  := rfl

/-- The link entries lie above the P1 tables. -/
theorem Grown.not_linkAt (h : Grown Dom Shared r (tablePath a) T T' new)
    (hdom : Dom r (tablePath a)) {s u : Nat} {p : List (Fin 512)} (hs : Dom s p)
    (hu : walk T' s p = some u) (hp : 3 ≤ p.length) (j : Fin 512) :
  ¬ LinkAt r (tablePath a) T' new u j
  := by
  rintro ⟨q, f, -, -, hq, hwalk⟩
  have hlen := hq.length_le
  rw [List.length_append, List.length_singleton, tablePath_length] at hlen
  have hqdom : Dom r q := by
    obtain ⟨l, hl⟩ := (List.prefix_append q [j]).trans hq
    apply h.forest.closed_append l
    rw [hl]
    apply hdom
  obtain ⟨rfl, -⟩ := h.forest.unique hs hqdom hu hwalk
  omega

/-- The new tables change no entry of a page. -/
theorem Grown.entry_eq (h : Grown Dom Shared r (tablePath a) T T' new)
    (hdom : Dom r (tablePath a)) {s u b : Nat} (hs : Dom s (tablePath b))
    (hu : walk T' s (tablePath b) = some u) :
  T' u (p1Offset b) = lookup T s b
  := by
  have hlink := h.not_linkAt hdom hs hu (Nat.le_refl 3) (p1Offset b)
  rw [lookup]
  obtain hsame | ⟨hnone, -, -, f, hf, hwalk⟩ := h.walks hs
  · rw [← hsame, hu]
    have hnot : u ∉ new := by
      intro hmem
      apply h.fresh u hmem
      exact ⟨s, _, hs, hsame.symm.trans hu⟩
    obtain hentry | ⟨-, hlinkAt⟩ := h.kept u hnot (p1Offset b)
    · apply hentry
    · exact absurd hlinkAt hlink
  · obtain rfl := Option.some.inj (hu.symm.trans hwalk)
    rw [hnone]
    obtain hzero | hlinkAt := h.cleared u hf (p1Offset b)
    · apply hzero
    · exact absurd hlinkAt hlink

variable (hT : Forest child T' Dom Shared) (hdom : Dom r (tablePath a))
  (hdepth : ∀ s p, Dom s p → p.length ≤ 3) (ht : walk T' r (tablePath a) = some t)

include hT hdom hdepth ht

/-- Writing the entry of a page keeps the tables. -/
theorem walk_setWord {s : Nat} {p : List (Fin 512)} (hp : Dom s p) :
  walk (setWord T' t (p1Offset a) v) s p = walk T' s p
  := by
  obtain hsame | ⟨l, rfl, -⟩ := hT.walk_update hdom ht
    (fun u j _ hedge => setWord_of_ne T' (i := p1Offset a) v hedge) hp
  · apply hsame
  · have hlen := hdepth s _ hp
    rw [List.length_append, tablePath_length, List.length_cons] at hlen
    omega

/-- Making tables and writing the entry of a page changes the entry of no other page. -/
theorem Grown.lookup_setWord (h : Grown Dom Shared r (tablePath a) T T' new) {s b : Nat}
    (hs : Dom s (tablePath b)) :
  lookup (setWord T' t (p1Offset a) v) s b
    = if (tablePath b = tablePath a ∧ p1Offset b = p1Offset a)
        ∧ walk T' s (tablePath b) = some t then v
      else lookup T s b
  := by
  rw [lookup, walk_setWord hT hdom hdepth ht hs]
  cases hu : walk T' s (tablePath b) with
  | none =>
      rw [if_neg (by simp)]
      obtain hsame | ⟨hnone, -⟩ := h.walks hs
      · rw [lookup, ← hsame, hu]
      · rw [lookup, hnone]
  | some u =>
      have hentry := h.entry_eq hdom hs hu
      by_cases hut : u = t
      · subst hut
        obtain ⟨hpath, -⟩ := hT.unique hs hdom hu ht
        by_cases hi : p1Offset b = p1Offset a
        · rw [if_pos ⟨⟨hpath, hi⟩, rfl⟩, hi]
          apply setWord_self
        · rw [if_neg (fun hif => hi hif.1.2)]
          simp only
          rw [setWord_of_ne _ _ (Or.inr hi), hentry]
      · rw [if_neg (fun hif => hut (Option.some.inj hif.2))]
        simp only
        rw [setWord_of_ne _ _ (Or.inl hut), hentry]

/-- An entry of a table above the P1s after tables have been made and the entry of a page has been
written: it is the old one, or it is zero, or it points to a new table. -/
theorem Grown.upper_entry (h : Grown Dom Shared r (tablePath a) T T' new) {s u : Nat}
    {p : List (Fin 512)} (hs : Dom s p) (hp : p.length ≤ 2)
    (hu : walk (setWord T' t (p1Offset a) v) s p = some u) (i : Fin 512) :
  (walk T s p = some u ∧ setWord T' t (p1Offset a) v u i = T u i)
    ∨ setWord T' t (p1Offset a) v u i = 0
    ∨ ∃ f ∈ new, setWord T' t (p1Offset a) v u i = addFlags (frame f) tableFlags
  := by
  rw [walk_setWord hT hdom hdepth ht hs] at hu
  have hut : u ≠ t := by
    rintro rfl
    obtain ⟨rfl, -⟩ := hT.unique hs hdom hu ht
    rw [tablePath_length] at hp
    omega
  rw [setWord_of_ne _ _ (Or.inl hut)]
  obtain hsame | ⟨-, -, -, f, hf, hwalk⟩ := h.walks hs
  · have hold := hsame.symm.trans hu
    have hnot : u ∉ new := fun hmem => h.fresh u hmem ⟨s, p, hs, hold⟩
    obtain hkept | ⟨-, -, f, hf, hentry, -⟩ := h.kept u hnot i
    · left
      exact ⟨hold, hkept⟩
    · right
      right
      exact ⟨f, hf, hentry⟩
  · obtain rfl := Option.some.inj (hu.symm.trans hwalk)
    right
    obtain hzero | ⟨-, f, hf, hentry, -⟩ := h.cleared u hf i
    · left
      apply hzero
    · right
      exact ⟨f, hf, hentry⟩

end Lookup

/-! ### Families of address spaces -/

/-- The address spaces `roots` are well formed: their tables are distinct frames, where only
those under the entry of the kernel may belong to several address spaces; no entry that points to
a table has `PAGE_HUGE`; and the kernel has a pointer to every table. -/
structure WellFormed (T : Words) (roots : Nat → Prop) : Prop where
  forest : Forest child T (Tables roots) UnderKernel
  small : ∀ {r p t}, roots r → p.length ≤ 2 → walk T r p = some t → ∀ i, isHuge (T t i) = false
  pointer : ∀ {r p t}, Tables roots r p → walk T r p = some t → p2v (frame t) ≠ 0

section WellFormed

variable {roots : Nat → Prop} {T T' : Words} {r a t : Nat}

theorem WellFormed.noHuge (h : WellFormed T roots) (hr : roots r) :
  NoHuge T r (tablePath a)
  := by
  intro p i t hp ht
  apply h.small hr _ ht
  have hlen := hp.length_le
  rw [List.length_append, List.length_singleton, tablePath_length] at hlen
  omega

theorem tables_tablePath (hr : roots r) (a : Nat) :
  Tables roots r (tablePath a)
  := ⟨hr, Nat.le_refl 3⟩

/-- `vmm_get_page` reads the entry of the page. -/
theorem WellFormed.vmmGetPage_eq {bootP4 P4 : Nat} {s : Machine} (h : WellFormed (words s.mem) roots)
    (hr : roots r) (hroot : resolveP4 bootP4 P4 = frame r) (a : Nat) :
  vmmGetPage bootP4 s P4 a = lookup (words s.mem) r a
  := by
  apply Mem.vmmGetPage_eq hroot (h.noHuge hr)
  intro t ht
  apply h.pointer (tables_tablePath hr a) ht

/-- Making tables and writing the entry of a page keeps the address spaces well formed. -/
theorem WellFormed.setWord {new : List Nat} {v : Nat} (h : WellFormed T roots) (hr : roots r)
    (hgrown : Grown (Tables roots) UnderKernel r (tablePath a) T T' new)
    (ht : walk T' r (tablePath a) = some t) (hnew : ∀ f ∈ new, p2v (frame f) ≠ 0) :
  WellFormed (setWord T' t (p1Offset a) v) roots
  := by
  have hdom := tables_tablePath hr a
  have hwalk : ∀ s p, Tables roots s p →
      walk (Mem.setWord T' t (p1Offset a) v) s p = walk T' s p := by
    intro s p hp
    apply walk_setWord hgrown.forest hdom (fun _ _ hs => hs.2) ht hp
  constructor
  · apply hgrown.forest.congr hwalk
  · intro s p u hs hp hu i
    have hdom' : Tables roots s p := ⟨hs, by omega⟩
    obtain ⟨hold, hkept⟩ | hzero | ⟨f, -, hentry⟩ :=
      hgrown.upper_entry hgrown.forest hdom (fun _ _ hs => hs.2) ht hdom' hp hu i
    · rw [hkept]
      apply h.small hs hp hold
    · rw [hzero]
      rfl
    · rw [hentry]
      apply (child_addFlags f).2.1
  · intro s p u hdom' hu
    rw [hwalk s p hdom'] at hu
    obtain hsame | ⟨-, -, -, f, hf, hwalk'⟩ := hgrown.walks hdom'
    · apply h.pointer hdom'
      rw [← hsame, hu]
    · obtain rfl := Option.some.inj (hu.symm.trans hwalk')
      apply hnew u hf

end WellFormed

/-- After `vmm_set_page(P4, a, phys, flags)`, `vmm_get_page(P4, b)` is the new entry for the
addresses of the page of `a`, and what it was for all others; the address spaces are well formed
again, and no user address of another one is translated differently. -/
theorem vmmGetPage_vmmSetPage {roots : Nat → Prop} {bootP4 P4 r a phys flags : Nat} {s : Machine}
    {fs : List Nat} (h : WellFormed (words s.mem) roots) (hr : roots r)
    (hroot : resolveP4 bootP4 P4 = frame r) (hphys : phys < 2 ^ 64) (hfs : Supply fs s)
    (henough : missing (words s.mem) r (tablePath a) ≤ fs.length) (hnodup : fs.Nodup)
    (hfresh : ∀ f ∈ fs, frame f < 2 ^ 64 ∧ p2v (frame f) ≠ 0
      ∧ ¬ Node child (words s.mem) (Tables roots) f) :
  ∃ s', vmmSetPage bootP4 s P4 a phys flags = some (phys ||| (flags &&& 0xFFF), s')
    ∧ (∀ b, vmmGetPage bootP4 s' P4 b
        = if p4Offset b = p4Offset a ∧ p3Offset b = p3Offset a ∧ p2Offset b = p2Offset a
            ∧ p1Offset b = p1Offset a then phys ||| (flags &&& 0xFFF)
          else vmmGetPage bootP4 s P4 b)
    ∧ WellFormed (words s'.mem) roots
    ∧ ∀ q Q b, roots q → q ≠ r → resolveP4 bootP4 Q = frame q → p4Offset b ≠ 511 →
        vmmGetPage bootP4 s' Q b = vmmGetPage bootP4 s Q b
  := by
  have hdom := tables_tablePath hr a
  obtain ⟨s', t, T', new, fs', rfl, hset, hgrown, ht, hwords, -⟩ | ⟨hlen, -⟩ :=
    vmmSetPage_spec supply_source (fun p j hp => hp.append j) flags h.forest hdom hroot
      (h.noHuge hr) (fun t ht => h.pointer hdom ht) hfs hnodup hfresh hphys
  · have hnew : ∀ f ∈ new, p2v (frame f) ≠ 0 := by
      intro f hf
      apply (hfresh f (List.mem_append_left _ hf)).2.1
    have hafter : WellFormed (words s'.mem) roots := by
      rw [hwords]
      apply h.setWord hr hgrown ht hnew
    have hlookup : ∀ q b, roots q → lookup (words s'.mem) q b
        = if (tablePath b = tablePath a ∧ p1Offset b = p1Offset a)
            ∧ walk T' q (tablePath b) = some t then addFlags phys flags
          else lookup (words s.mem) q b := by
      intro q b hq
      rw [hwords]
      apply hgrown.lookup_setWord hgrown.forest hdom (fun _ _ hs => hs.2) ht
      apply tables_tablePath hq
    refine ⟨s', hset, ?_, hafter, ?_⟩
    · intro b
      rw [hafter.vmmGetPage_eq hr hroot, h.vmmGetPage_eq hr hroot, hlookup r b hr]
      apply if_congr _ rfl rfl
      simp only [tablePath, List.cons.injEq, and_true]
      constructor
      · rintro ⟨⟨⟨h4, h3, h2⟩, h1⟩, -⟩
        exact ⟨h4, h3, h2, h1⟩
      · rintro ⟨h4, h3, h2, h1⟩
        refine ⟨⟨⟨h4, h3, h2⟩, h1⟩, ?_⟩
        rw [h4, h3, h2]
        apply ht
    · intro q Q b hq hne hQ hb
      rw [hafter.vmmGetPage_eq hq hQ, h.vmmGetPage_eq hq hQ, hlookup q b hq, if_neg]
      rintro ⟨⟨hpath, -⟩, hwalk⟩
      obtain ⟨-, heq | hkernel⟩ := hgrown.forest.unique (tables_tablePath hq b) hdom hwalk ht
      · apply hne heq
      · apply hb
        apply Option.some.inj hkernel
  · omega

/-- A machine with a memory of zeros, in which the frames from 3 on are free. -/
def blankMachine : Machine where
  mem := fun _ => 0
  pmmRunning := false
  pmmPos := p2v (frame 3)
  pmmStack := 0
  taken := []
  freed := []

/-- Two tables of zeros are two empty address spaces. -/
theorem wellFormed_blank :
  WellFormed (words blankMachine.mem) (fun r => r = 1 ∨ r = 2)
  := by
  have hwalk : ∀ r i p, walk (words blankMachine.mem) r (i :: p) = none := by
    intro r i p
    rw [walk_cons, blankMachine, words_zero]
    rfl
  have hnil : ∀ {r p t}, walk (words blankMachine.mem) r p = some t → p = [] ∧ r = t := by
    intro r p t ht
    cases p with
    | nil => exact ⟨rfl, Option.some.inj ht⟩
    | cons i p =>
        rw [hwalk] at ht
        cases ht
  constructor
  · constructor
    · apply tables_closed
    · intro r s p q t _ _ ht hs
      obtain ⟨rfl, rfl⟩ := hnil ht
      obtain ⟨rfl, rfl⟩ := hnil hs
      exact ⟨rfl, Or.inl rfl⟩
  · intro r p t _ _ _ i
    rw [blankMachine, words_zero]
    rfl
  · intro r p t hp ht
    obtain ⟨-, rfl⟩ := hnil ht
    obtain ⟨rfl | rfl, -⟩ := hp
    · decide
    · decide

theorem supply_blank :
  Supply [3, 4, 5] blankMachine
  := ⟨_, rfl, _, rfl, _, rfl, trivial⟩

/-- A page mapped in the first of two empty address spaces is seen there and nowhere else. -/
theorem vmmGetPage_vmmSetPage_blank :
  ∃ s', vmmSetPage 0x9000 blankMachine 0x1000 0x400000 0x7000 7 = some (0x7007, s')
    ∧ vmmGetPage 0x9000 s' 0x1000 0x400123 = 0x7007
    ∧ vmmGetPage 0x9000 s' 0x1000 0x401000 = vmmGetPage 0x9000 blankMachine 0x1000 0x401000
    ∧ vmmGetPage 0x9000 s' 0x2000 0x400123 = vmmGetPage 0x9000 blankMachine 0x2000 0x400123
  := by
  have hfresh : ∀ f ∈ [3, 4, 5], frame f < 2 ^ 64 ∧ p2v (frame f) ≠ 0
      ∧ ¬ Node child (words blankMachine.mem) (Tables fun r => r = 1 ∨ r = 2) f := by
    have hnode : ∀ f, Node child (words blankMachine.mem) (Tables fun r => r = 1 ∨ r = 2) f →
        f = 1 ∨ f = 2 := by
      rintro f ⟨r, p, ⟨hr, -⟩, hf⟩
      cases p with
      | nil =>
          obtain rfl := Option.some.inj hf
          apply hr
      | cons i p =>
          rw [Trie.walk_cons, blankMachine, words_zero] at hf
          cases hf
    have hlist : ∀ f ∈ [3, 4, 5], frame f < 2 ^ 64 ∧ p2v (frame f) ≠ 0 ∧ ¬ (f = 1 ∨ f = 2) := by
      decide
    intro f hf
    obtain ⟨hlt, hne, hnot⟩ := hlist f hf
    exact ⟨hlt, hne, fun hmem => hnot (hnode f hmem)⟩
  obtain ⟨s', hset, hget, -, hother⟩ := @vmmGetPage_vmmSetPage _ 0x9000 0x1000 1 0x400000
    0x7000 7 _ _ wellFormed_blank (Or.inl rfl) rfl (by decide) supply_blank (missing_le _ _ _)
    (by decide) hfresh
  refine ⟨s', hset, ?_, ?_, ?_⟩
  · rw [hget, if_pos (by decide)]
    rfl
  · rw [hget, if_neg (by decide)]
  · apply hother 2 0x2000 0x400123 (Or.inr rfl) (by decide) rfl (by decide)

end Mem
