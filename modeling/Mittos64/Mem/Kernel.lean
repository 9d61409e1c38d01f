import Mittos64.Mem.Mmu
import Mittos64.Mem.VmmFree
import Mittos64.Lib.Run

/-!
# The kernel half

Every address space has the tables under the entry 511 of its P4 in common with `BootP4`, because
`vmm_new_P4` copies that entry and nothing replaces it.  `KernelHalf b T live` says so for the
`BootP4` in the frame `b` and the address spaces `live`, together with what keeps it true: the
tables are distinct frames, `PAGE_HUGE` is found under the first entry of `BootP3` only, and no
frame mapped at a user address of a live address space is a page table, since `vmm_free_P4` frees
these frames.
-/

namespace Mem

open Trie (Forest Node)

/-- `BootP4` and the live address spaces. -/
def Roots (b : Nat) (live : Nat → Prop) (r : Nat) : Prop :=
  r = b ∨ live r

/-- The address lies under one of the entries of `BootP2`, which have `PAGE_HUGE`. -/
def UnderHuge (a : Nat) : Prop :=
  p4Offset a = 511 ∧ p3Offset a = 0

instance (a : Nat) : Decidable (UnderHuge a) :=
  inferInstanceAs (Decidable (_ ∧ _))

/-- The frame is mapped at a user address of one of the address spaces. -/
def Mapped (T : Words) (live : Nat → Prop) (f : Nat) : Prop :=
  ∃ r a, live r ∧ p4Offset a ≠ 511 ∧ lookup T r a ≠ 0 ∧ f = lookup T r a / pageSize

/-- The tables of the address spaces `live` share the kernel half of `BootP4`. -/
structure KernelTables (b : Nat) (T : Words) (live : Nat → Prop) : Prop where
  forest : Forest child T (Tables (Roots b live)) UnderKernel
  huge : ∀ {r p t i}, Roots b live r → p.length ≤ 2 → walk T r p = some t → isHuge (T t i) = true →
    p = [511, 0]
  direct : ∀ {r p t}, Tables (Roots b live) r p → walk T r p = some t → frame t < 2 ^ 39
  boot : T b 511 ≠ 0
  notBoot : ¬ live b
  kernel : ∀ {r}, live r → T r 511 = T b 511

/-- The address spaces `live` share the kernel half of `BootP4`, and map no page table for a
user. -/
structure KernelHalf (b : Nat) (T : Words) (live : Nat → Prop) : Prop
    extends KernelTables b T live where
  mapped : ∀ {f}, Mapped T live f → ¬ Node child T (Tables (Roots b live)) f

/-- The frame is free to be used: it is neither a table nor mapped for a user, and the kernel half
reaches it. -/
def Unused (b : Nat) (T : Words) (live : Nat → Prop) (f : Nat) : Prop :=
  frame f < 2 ^ 39 ∧ ¬ Node child T (Tables (Roots b live)) f ∧ ¬ Mapped T live f

/-- The entries of the upper tables that are not zero are present. -/
def Present (b : Nat) (T : Words) (live : Nat → Prop) : Prop :=
  ∀ {r p t i}, Roots b live r → p.length ≤ 2 → walk T r p = some t → T t i ≠ 0 →
    isPresent (T t i) = true

/-- The entries of the upper tables of `T` that are not zero are the same in `T'`. -/
def Kept (b : Nat) (live : Nat → Prop) (T T' : Words) : Prop :=
  ∀ {r p t i}, Roots b live r → p.length ≤ 2 → walk T r p = some t → T t i ≠ 0 → T' t i = T t i

/-- The kernel half has a pointer to the frame. -/
theorem p2v_ne_zero {f : Nat} (h : frame f < 2 ^ 39) :
  p2v (frame f) ≠ 0 ∧ frame f < 2 ^ 64
  := by
  simp only [p2v, kernelOffset]
  omega

section KernelHalf

variable {b r a : Nat} {T : Words} {live : Nat → Prop}

theorem KernelTables.noHuge (h : KernelTables b T live) (hr : Roots b live r) (ha : ¬ UnderHuge a) :
  NoHuge T r (tablePath a)
  := by
  intro p i t hp ht
  have hlen := hp.length_le
  rw [List.length_append, List.length_singleton, tablePath_length] at hlen
  by_contra hhuge
  rw [Bool.not_eq_false] at hhuge
  obtain rfl := h.huge hr (by omega) ht hhuge
  apply ha
  simp only [tablePath, List.cons_append, List.nil_append, List.cons_prefix_cons] at hp
  exact ⟨hp.1.symm, hp.2.1.symm⟩

theorem KernelTables.pointer (h : KernelTables b T live) (hr : Roots b live r) {t : Nat}
    (ht : walk T r (tablePath a) = some t) :
  p2v (frame t) ≠ 0
  := (p2v_ne_zero (h.direct (tables_tablePath hr a) ht)).1

/-- `vmm_get_page` reads the entry of the page. -/
theorem KernelTables.vmmGetPage_eq {P4 : Nat} {s : Machine} (h : KernelTables b (words s.mem) live)
    (hr : Roots b live r) (hroot : resolveP4 (frame b) P4 = frame r) (ha : ¬ UnderHuge a) :
  vmmGetPage (frame b) s P4 a = lookup (words s.mem) r a
  := by
  apply Mem.vmmGetPage_eq hroot (h.noHuge hr ha)
  intro t ht
  apply h.pointer hr ht

end KernelHalf

/-! ### Mapping a page -/

section SetPage

variable {b r a phys flags : Nat} {live : Nat → Prop} {T T' : Words} {new : List Nat} {t : Nat}

/-- The entries of the pages after `vmm_set_page`. -/
def setLookup (T : Words) (r a v q c : Nat) : Nat :=
  if (tablePath c = tablePath a ∧ p1Offset c = p1Offset a) ∧ (q = r ∨ p4Offset a = 511) then v
  else lookup T q c

theorem underKernel_tablePath :
  UnderKernel (tablePath a) ↔ p4Offset a = 511
  := by
  rw [UnderKernel, tablePath, List.head?_cons, Option.some.injEq]

variable (h : KernelTables b T live) (hr : Roots b live r)
  (hgrown : Grown (Tables (Roots b live)) UnderKernel r (tablePath a) T T' new)
  (ht : walk T' r (tablePath a) = some t) (v : Nat)

theorem roots_node {q : Nat} (hq : Roots b live q) :
  Node child T (Tables (Roots b live)) q
  := ⟨q, [], ⟨hq, Nat.zero_le 3⟩, rfl⟩

include h

theorem KernelTables.entry_eq {q : Nat} (hq : Roots b live q) :
  T q 511 = T b 511
  := by
  obtain rfl | hq := hq
  · rfl
  · apply h.kernel hq

include hr hgrown ht

/-- Nothing replaces the entry of the kernel. -/
theorem KernelTables.kernel_setWord {q : Nat} (hq : Roots b live q) :
  setWord T' t (p1Offset a) v q 511 = T q 511 ∧ T' q 511 = T q 511
  := by
  have hkept : T' q 511 = T q 511 := by
    obtain hkept | ⟨hzero, -⟩ := hgrown.kept q (fun hmem => hgrown.fresh q hmem (roots_node hq)) 511
    · apply hkept
    · rw [h.entry_eq hq] at hzero
      exact absurd hzero h.boot
  refine ⟨?_, hkept⟩
  rw [setWord_of_ne _ _ _, hkept]
  left
  rintro rfl
  have hdom : Tables (Roots b live) q [] := ⟨hq, Nat.zero_le 3⟩
  obtain ⟨hpath, -⟩ := hgrown.forest.unique hdom (tables_tablePath hr a) rfl ht
  cases hpath

/-- The entries of the pages after `vmm_set_page`. -/
theorem KernelTables.lookup_setWord {q : Nat} (hq : Roots b live q) (c : Nat) :
  lookup (setWord T' t (p1Offset a) v) q c = setLookup T r a v q c
  := by
  rw [hgrown.lookup_setWord hgrown.forest (tables_tablePath hr a) (fun _ _ hs => hs.2) ht
    (tables_tablePath hq c), setLookup]
  apply if_congr _ rfl rfl
  apply and_congr_right
  rintro ⟨hpath, -⟩
  rw [hpath]
  constructor
  · intro hwalk
    obtain ⟨-, heq | hkernel⟩ := hgrown.forest.unique (tables_tablePath hq a)
      (tables_tablePath hr a) hwalk ht
    · left
      apply heq
    · right
      apply underKernel_tablePath.mp hkernel
  · rintro (rfl | hkernel)
    · apply ht
    · rw [tablePath, hkernel] at ht ⊢
      rw [walk_cons] at ht ⊢
      rw [(h.kernel_setWord hr hgrown (by rw [tablePath, hkernel]; exact ht) v hq).2,
        h.entry_eq hq, ← h.entry_eq hr,
        ← (h.kernel_setWord hr hgrown (by rw [tablePath, hkernel]; exact ht) v hr).2]
      apply ht

omit h in
/-- The tables after `vmm_set_page` are the old ones and the new ones. -/
theorem node_setWord {n : Nat} :
  Node child (setWord T' t (p1Offset a) v) (Tables (Roots b live)) n
    ↔ Node child T (Tables (Roots b live)) n ∨ n ∈ new
  := by
  have hdom := tables_tablePath hr a
  have hwalk : ∀ {q p}, Tables (Roots b live) q p →
      walk (setWord T' t (p1Offset a) v) q p = walk T' q p := by
    intro q p hp
    apply walk_setWord hgrown.forest hdom (fun _ _ hs => hs.2) ht hp
  constructor
  · rintro ⟨q, p, hp, hn⟩
    apply hgrown.node
    exact ⟨q, p, hp, (hwalk hp).symm.trans hn⟩
  · rintro (⟨q, p, hp, hn⟩ | hn)
    · exact ⟨q, p, hp, (hwalk hp).trans (hgrown.mono hp hn)⟩
    · obtain ⟨p, -, ⟨l, hl⟩, hn⟩ := hgrown.reached n hn
      have hp : Tables (Roots b live) r p := by
        apply hgrown.forest.closed_append l
        rw [hl]
        apply hdom
      exact ⟨r, p, hp, (hwalk hp).trans hn⟩

omit h in
/-- Frames that are not tables keep their words. -/
theorem words_setWord {n : Nat} (hn : ¬ Node child T (Tables (Roots b live)) n) (hnew : n ∉ new)
    (j : Fin 512) :
  setWord T' t (p1Offset a) v n j = T n j
  := by
  have hnode : ¬ Node child T' (Tables (Roots b live)) n := by
    intro hnode
    obtain hold | hmem := hgrown.node hnode
    · apply hn hold
    · apply hnew hmem
  have hnt : n ≠ t := by
    rintro rfl
    apply hnode
    exact ⟨r, tablePath a, tables_tablePath hr a, ht⟩
  rw [setWord_of_ne _ _ (Or.inl hnt)]
  obtain hkept | ⟨-, p, -, -, -, ⟨l, hl⟩, hwalk⟩ := hgrown.kept n hnew j
  · apply hkept
  · refine absurd ⟨r, p, ?_, hwalk⟩ hnode
    apply hgrown.forest.closed_append ([j] ++ l)
    rw [← List.append_assoc, hl]
    apply tables_tablePath hr a

omit h in
/-- The tables that are there keep their entries. -/
theorem kept_setWord :
  Kept b live T (setWord T' t (p1Offset a) v)
  := by
  intro q p u i hq hp hu hne
  have hdom : Tables (Roots b live) q p := ⟨hq, by omega⟩
  have hut : u ≠ t := by
    rintro rfl
    obtain ⟨rfl, -⟩ :=
      hgrown.forest.unique hdom (tables_tablePath hr a) (hgrown.mono hdom hu) ht
    rw [tablePath_length] at hp
    omega
  have hnew : u ∉ new := fun hmem => hgrown.fresh u hmem ⟨q, p, hdom, hu⟩
  rw [setWord_of_ne _ _ (Or.inl hut)]
  obtain hkept | ⟨hzero, -⟩ := hgrown.kept u hnew i
  · apply hkept
  · exact absurd hzero hne

omit h in
/-- New entries of tables are present. -/
theorem present_setWord (hpresent : Present b T live) :
  Present b (setWord T' t (p1Offset a) v) live
  := by
  intro q p u i hq hp hu hne
  obtain ⟨hold, hkept⟩ | hzero | ⟨f, -, hentry⟩ :=
    hgrown.upper_entry hgrown.forest (tables_tablePath hr a) (fun _ _ hs => hs.2) ht
      ⟨hq, by omega⟩ hp hu i
  · rw [hkept] at hne ⊢
    apply hpresent hq hp hold hne
  · exact absurd hzero hne
  · rw [hentry]
    apply isPresent_addFlags f (by decide)

/-- The tables after `vmm_set_page`. -/
theorem KernelTables.setWord (hnew : ∀ f ∈ new, frame f < 2 ^ 39) :
  KernelTables b (setWord T' t (p1Offset a) v) live
  := by
  have hdom := tables_tablePath hr a
  have hwalk : ∀ q p, Tables (Roots b live) q p →
      walk (Mem.setWord T' t (p1Offset a) v) q p = walk T' q p := by
    intro q p hp
    apply walk_setWord hgrown.forest hdom (fun _ _ hs => hs.2) ht hp
  constructor
  · apply hgrown.forest.congr hwalk
  · intro q p u i hq hp hu hhuge
    have hdom' : Tables (Roots b live) q p := ⟨hq, by omega⟩
    obtain ⟨hold, hkept⟩ | hzero | ⟨f, -, hentry⟩ :=
      hgrown.upper_entry hgrown.forest hdom (fun _ _ hs => hs.2) ht hdom' hp hu i
    · rw [hkept] at hhuge
      apply h.huge hq hp hold hhuge
    · rw [hzero] at hhuge
      cases hhuge
    · rw [hentry, (child_addFlags f).2.1] at hhuge
      cases hhuge
  · intro q p u hdom' hu
    rw [hwalk q p hdom'] at hu
    obtain hsame | ⟨-, -, -, f, hf, hwalk'⟩ := hgrown.walks hdom'
    · apply h.direct hdom'
      rw [← hsame, hu]
    · obtain rfl := Option.some.inj (hu.symm.trans hwalk')
      apply hnew u hf
  · rw [(h.kernel_setWord hr hgrown ht v (Or.inl rfl)).1]
    apply h.boot
  · apply h.notBoot
  · intro q hq
    rw [(h.kernel_setWord hr hgrown ht v (Or.inr hq)).1,
      (h.kernel_setWord hr hgrown ht v (Or.inl rfl)).1]
    apply h.kernel hq

end SetPage

section SetPage

variable {b r a v : Nat} {live : Nat → Prop} {T T' : Words} {new : List Nat} {t : Nat}

/-- The kernel half after `vmm_set_page`. -/
theorem KernelHalf.setWord (h : KernelHalf b T live) (hr : Roots b live r)
    (hgrown : Grown (Tables (Roots b live)) UnderKernel r (tablePath a) T T' new)
    (ht : walk T' r (tablePath a) = some t) (hnew : ∀ f ∈ new, Unused b T live f)
    (hv : live r → p4Offset a ≠ 511 → v ≠ 0 →
      ¬ Node child T (Tables (Roots b live)) (v / pageSize) ∧ v / pageSize ∉ new) :
  KernelHalf b (setWord T' t (p1Offset a) v) live
  := by
  constructor
  · apply h.toKernelTables.setWord hr hgrown ht
    intro f hf
    apply (hnew f hf).1
  · rintro f ⟨q, c, hq, hc, hne, rfl⟩ hnode
    have hnode' := (node_setWord hr hgrown ht v).mp hnode
    rw [h.lookup_setWord hr hgrown ht v (Or.inr hq), setLookup] at hne hnode'
    split_ifs at hne hnode' with hpage
    · obtain ⟨⟨hpath, -⟩, hqr⟩ := hpage
      have hac : p4Offset c = p4Offset a := (List.cons.inj hpath).1
      rw [hac] at hc
      obtain rfl := hqr.resolve_right hc
      obtain ⟨hnot, hnot'⟩ := hv hq hc hne
      obtain hold | hmem := hnode'
      · apply hnot hold
      · apply hnot' hmem
    · have hmapped : Mapped T live (lookup T q c / pageSize) := ⟨q, c, hq, hc, hne, rfl⟩
      obtain hold | hmem := hnode'
      · apply h.mapped hmapped hold
      · apply (hnew _ hmem).2.2 hmapped

end SetPage

/-- `vmm_set_page` with frames that are not in use. -/
theorem KernelHalf.vmmSetPage {I : List Nat → Machine → Prop} (hI : Source I) {b r a phys P4 : Nat}
    (flags : Nat) {live : Nat → Prop} {s : Machine} {fs : List Nat}
    (h : KernelHalf b (words s.mem) live) (hr : Roots b live r)
    (hroot : resolveP4 (frame b) P4 = frame r) (ha : ¬ UnderHuge a) (hphys : phys < 2 ^ 64)
    (hfs : I fs s) (hnodup : fs.Nodup) (hunused : ∀ f ∈ fs, Unused b (words s.mem) live f)
    (hv : live r → p4Offset a ≠ 511 → addFlags phys flags ≠ 0 →
      ¬ Node child (words s.mem) (Tables (Roots b live)) (phys / pageSize)
        ∧ phys / pageSize ∉ fs) :
  (∃ s' new fs', fs = new ++ fs'
      ∧ vmmSetPage (frame b) s P4 a phys flags = some (addFlags phys flags, s')
      ∧ KernelHalf b (words s'.mem) live
      ∧ (∀ q c, Roots b live q →
          lookup (words s'.mem) q c = setLookup (words s.mem) r a (addFlags phys flags) q c)
      ∧ (∀ n, Node child (words s'.mem) (Tables (Roots b live)) n
          ↔ Node child (words s.mem) (Tables (Roots b live)) n ∨ n ∈ new)
      ∧ (∀ n, ¬ Node child (words s.mem) (Tables (Roots b live)) n → n ∉ new →
          words s'.mem n = words s.mem n)
      ∧ Kept b live (words s.mem) (words s'.mem)
      ∧ (Present b (words s.mem) live → Present b (words s'.mem) live)
      ∧ new.length ≤ 3 ∧ I fs' s')
    ∨ (fs.length < missing (words s.mem) r (tablePath a)
      ∧ ∃ u, I [] u ∧ (pmmAlloc u = none → vmmSetPage (frame b) s P4 a phys flags = none))
  := by
  have hfresh : ∀ f ∈ fs, frame f < 2 ^ 64 ∧ p2v (frame f) ≠ 0
      ∧ ¬ Node child (words s.mem) (Tables (Roots b live)) f := by
    intro f hf
    obtain ⟨hlt, hnode, -⟩ := hunused f hf
    exact ⟨(p2v_ne_zero hlt).2, (p2v_ne_zero hlt).1, hnode⟩
  obtain ⟨s', t, T', new, fs', rfl, hset, hgrown, ht, hwords, hlen, hfs'⟩ | hnone :=
    vmmSetPage_spec hI (fun p j hp => hp.append j) flags h.forest (tables_tablePath hr a) hroot
      (h.noHuge hr ha) (fun t ht => h.pointer hr ht) hfs hnodup hfresh hphys
  · left
    refine ⟨s', new, fs', rfl, hset, ?_, ?_, ?_, ?_, ?_, ?_, hlen, hfs'⟩
    · rw [hwords]
      apply h.setWord hr hgrown ht
      · intro f hf
        apply hunused f (List.mem_append_left _ hf)
      · intro hlive huser hne
        rw [addFlags_div]
        obtain ⟨hnode, hnot⟩ := hv hlive huser hne
        exact ⟨hnode, fun hmem => hnot (List.mem_append_left _ hmem)⟩
    · intro q c hq
      rw [hwords]
      apply h.lookup_setWord hr hgrown ht _ hq
    · intro n
      rw [hwords]
      apply node_setWord hr hgrown ht
    · intro n hn hnew
      rw [hwords]
      funext j
      apply words_setWord hr hgrown ht _ hn hnew
    · rw [hwords]
      apply kept_setWord hr hgrown ht
    · rw [hwords]
      apply present_setWord hr hgrown ht
  · right
    apply hnone

/-! ### What the processor sees -/

section Translate

variable {b r a f : Nat} {T T' : Words} {live : Nat → Prop} (h : KernelTables b T live)
  (hr : Roots b live r)

/-- Tables that are there stay where they are. -/
theorem Kept.walk (hkept : Kept b live T T') {q t : Nat} (hq : Roots b live q)
    {p : List (Fin 512)} (hp : p.length ≤ 3) (ht : walk T q p = some t) :
  Mem.walk T' q p = some t
  := by
  induction p using List.reverseRecOn generalizing t with
  | nil => exact ht
  | append_singleton p i ih =>
      rw [List.length_append, List.length_singleton] at hp
      rw [walk_concat] at ht ⊢
      obtain ⟨u, hu, hchild⟩ := Option.bind_eq_some_iff.mp ht
      rw [ih (by omega) hu, Option.bind_some]
      have hne : T u i ≠ 0 := by
        intro hzero
        rw [hzero] at hchild
        cases hchild
      rw [hkept hq (by omega) hu hne]
      apply hchild

include h hr

theorem KernelTables.walk_lt {p : List (Fin 512)} {t : Nat} (hp : p.length ≤ 3)
    (ht : walk T r p = some t) :
  t < 2 ^ 40
  := by
  have hlt := h.direct ⟨hr, hp⟩ ht
  rw [frame, pageSize] at hlt
  omega

/-- The processor still finds a frame when tables have been added. -/
theorem KernelTables.translate_kept (hkept : Kept b live T T')
    (hlookup : lookup T' r a = lookup T r a) (hf : translate T r a = some f) :
  translate T' r a = some f
  := by
  have hlen : (tablePath a ++ [p1Offset a]).length = 4 := rfl
  have hentry : ∀ p i u, p ++ [i] <+: tablePath a ++ [p1Offset a] → walk T r p = some u →
      T u i ≠ 0 → T' u i = T u i := by
    intro p i u hp hu hne
    by_cases hshort : p.length ≤ 2
    · exact hkept hr hshort hu hne
    · -- the whole path: the entry of the page
      have hle := hp.length_le
      rw [List.length_append, List.length_singleton, hlen] at hle
      have heq : p ++ [i] = tablePath a ++ [p1Offset a] := by
        apply hp.eq_of_length
        rw [List.length_append, List.length_singleton, hlen]
        omega
      obtain ⟨rfl, hi⟩ := List.append_inj heq (by rw [tablePath_length]; omega)
      obtain rfl := (List.cons.inj hi).1
      have hu' := hkept.walk hr (Nat.le_of_eq (tablePath_length a)) hu
      rw [lookup, lookup, hu', hu] at hlookup
      exact hlookup
  rw [translate] at hf ⊢
  split_ifs at hf with hhuge
  have hfirst : T r (p4Offset a) ≠ 0 := by
    intro hzero
    rw [tablePath, List.cons_append, descend, hzero] at hf
    cases hf
  rw [hentry [] (p4Offset a) r (by simp [tablePath]) rfl hfirst, if_neg hhuge]
  apply descend_mono _ hentry hf
  intro p u hp hne hu
  apply h.walk_lt hr _ hu
  have hle := hp.length_le
  have hne' : p.length ≠ 4 := fun heq => hne (hp.eq_of_length (heq.trans hlen.symm))
  omega

/-- What the processor finds at a page of 4 KiB that is present. -/
theorem KernelTables.translate_eq (hpresent : Present b T live) (ha : ¬ UnderHuge a)
    (hpage : isPresent (lookup T r a) = true) :
  translate T r a = some (frameOf (lookup T r a))
  := by
  cases hu : walk T r (tablePath a) with
  | none =>
      rw [lookup, hu] at hpage
      exact absurd rfl (ne_zero_of_isPresent hpage)
  | some u =>
      have hlookup : lookup T r a = T u (p1Offset a) := by
        rw [lookup, hu]
      rw [hlookup] at hpage ⊢
      have hhuge := h.noHuge hr ha
      rw [translate, hhuge [] (p4Offset a) r (by simp [tablePath]) rfl]
      apply descend_of_walk hhuge _ _ hu hpage
      · intro p t hp ht
        exact h.walk_lt hr hp.length_le ht
      · intro p i t hp ht hne
        have hle := hp.length_le
        rw [List.length_append, List.length_singleton, tablePath_length] at hle
        exact hpresent hr (by omega) ht hne

end Translate

/-! ### Writing to frames that are not tables -/

section Congr

variable {b : Nat} {live : Nat → Prop} {T T' : Words} (h : KernelTables b T live)
  (hT : ∀ n, Node child T (Tables (Roots b live)) n → T' n = T n)

include h hT

/-- A walk passes tables only. -/
theorem KernelTables.walk_congr {r : Nat} {p : List (Fin 512)} (hp : Tables (Roots b live) r p) :
  walk T' r p = walk T r p
  := by
  apply h.forest.walk_outside _ hp
  intro n j hn
  rw [hT n hn]

theorem KernelTables.node_congr {n : Nat} :
  Node child T' (Tables (Roots b live)) n ↔ Node child T (Tables (Roots b live)) n
  := by
  constructor
  · rintro ⟨r, p, hp, hn⟩
    exact ⟨r, p, hp, (h.walk_congr hT hp).symm.trans hn⟩
  · rintro ⟨r, p, hp, hn⟩
    exact ⟨r, p, hp, (h.walk_congr hT hp).trans hn⟩

theorem KernelTables.lookup_congr {r : Nat} (hr : Roots b live r) (a : Nat) :
  lookup T' r a = lookup T r a
  := by
  rw [lookup, lookup, h.walk_congr hT (tables_tablePath hr a)]
  cases ht : walk T r (tablePath a) with
  | none => rfl
  | some t =>
      dsimp only
      rw [hT t ⟨r, tablePath a, tables_tablePath hr a, ht⟩]

theorem KernelTables.present_congr (hpresent : Present b T live) :
  Present b T' live
  := by
  intro r p t i hr hp ht hne
  have hdom : Tables (Roots b live) r p := ⟨hr, by omega⟩
  rw [h.walk_congr hT hdom] at ht
  rw [hT t ⟨r, p, hdom, ht⟩] at hne ⊢
  apply hpresent hr hp ht hne

theorem KernelTables.congr :
  KernelTables b T' live
  := by
  have hroot : ∀ {q}, Roots b live q → T' q = T q := fun hq => hT _ (roots_node hq)
  refine ⟨?_, ?_, ?_, ?_, h.notBoot, ?_⟩
  · apply h.forest.congr
    intro r p hp
    apply h.walk_congr hT hp
  · intro r p t i hr hp ht hhuge
    have hdom : Tables (Roots b live) r p := ⟨hr, by omega⟩
    rw [h.walk_congr hT hdom] at ht
    rw [hT t ⟨r, p, hdom, ht⟩] at hhuge
    apply h.huge hr hp ht hhuge
  · intro r p t hp ht
    rw [h.walk_congr hT hp] at ht
    apply h.direct hp ht
  · rw [hroot (Or.inl rfl)]
    apply h.boot
  · intro r hr
    rw [hroot (Or.inr hr), hroot (Or.inl rfl)]
    apply h.kernel hr

omit h in
theorem KernelHalf.congr (h : KernelHalf b T live) :
  KernelHalf b T' live
  := by
  refine ⟨h.toKernelTables.congr hT, ?_⟩
  rintro f ⟨r, a, hr, ha, hne, rfl⟩ hnode
  rw [h.toKernelTables.lookup_congr hT (Or.inr hr)] at hne hnode
  rw [h.toKernelTables.node_congr hT] at hnode
  apply h.mapped ⟨r, a, hr, ha, hne, rfl⟩ hnode

end Congr

/-! ### A new address space -/

section NewP4

variable {b f : Nat} {live : Nat → Prop} {T : Words}

/-- The words after `vmm_new_P4` has made the address space `f`. -/
def newRoot (b f : Nat) (T : Words) : Words :=
  setWord (clearFrame T f) f 511 (T b 511)

/-- The live address spaces with a new one. -/
def withRoot (f : Nat) (live : Nat → Prop) (r : Nat) : Prop :=
  r = f ∨ live r

theorem newRoot_of_ne {n : Nat} (hn : n ≠ f) (j : Fin 512) :
  newRoot b f T n j = T n j
  := by
  rw [newRoot, setWord_of_ne _ _ (Or.inl hn), clearFrame_of_ne _ _ hn]

@[simp]
theorem newRoot_kernel :
  newRoot b f T f 511 = T b 511
  := setWord_self _ _ _ _

theorem newRoot_user {j : Fin 512} (hj : j ≠ 511) :
  newRoot b f T f j = 0
  := by
  rw [newRoot, setWord_of_ne _ _ (Or.inr hj), clearFrame_self]

theorem roots_withRoot {r : Nat} :
  Roots b (withRoot f live) r ↔ r = f ∨ Roots b live r
  := or_left_comm

variable (h : KernelHalf b T live) (hf : ¬ Node child T (Tables (Roots b live)) f)

include h hf

/-- The old address spaces are as they were. -/
theorem KernelHalf.walk_newRoot {r : Nat} {p : List (Fin 512)} (hp : Tables (Roots b live) r p) :
  walk (newRoot b f T) r p = walk T r p
  := by
  apply h.forest.walk_outside _ hp
  intro n j hn
  apply newRoot_of_ne
  rintro rfl
  apply hf hn

/-- The walks of the new address space. -/
theorem KernelHalf.walk_newRoot_self {p : List (Fin 512)} {t : Nat} (hp : p.length ≤ 3)
    (ht : walk (newRoot b f T) f p = some t) :
  (p = [] ∧ t = f) ∨ (UnderKernel p ∧ walk T b p = some t)
  := by
  cases p with
  | nil =>
      left
      exact ⟨rfl, (Option.some.inj ht).symm⟩
  | cons i p =>
      right
      by_cases hi : i = 511
      · subst hi
        refine ⟨rfl, ?_⟩
        have hb : Tables (Roots b live) b (511 :: p) := ⟨Or.inl rfl, hp⟩
        rw [← h.walk_newRoot hf hb, walk_cons, newRoot_of_ne]
        · rw [walk_cons, newRoot_kernel] at ht
          apply ht
        · rintro rfl
          apply hf (roots_node (Or.inl rfl))
      · rw [walk_cons, newRoot_user hi] at ht
        cases ht

/-- A walk in the new family is one of the old family, or the new root. -/
theorem KernelHalf.walk_withRoot {r t : Nat} {p : List (Fin 512)}
    (hp : Tables (Roots b (withRoot f live)) r p) (ht : walk (newRoot b f T) r p = some t) :
  (r = f ∧ p = [] ∧ t = f)
    ∨ (r = f ∧ UnderKernel p ∧ Tables (Roots b live) b p ∧ walk T b p = some t)
    ∨ (Tables (Roots b live) r p ∧ walk T r p = some t)
  := by
  obtain ⟨hr, hlen⟩ := hp
  obtain rfl | hr := roots_withRoot.mp hr
  · obtain ⟨rfl, rfl⟩ | ⟨hkernel, hwalk⟩ := h.walk_newRoot_self hf hlen ht
    · left
      exact ⟨rfl, rfl, rfl⟩
    · right
      left
      exact ⟨rfl, hkernel, ⟨Or.inl rfl, hlen⟩, hwalk⟩
  · right
    right
    refine ⟨⟨hr, hlen⟩, ?_⟩
    rw [← h.walk_newRoot hf ⟨hr, hlen⟩]
    apply ht

theorem KernelHalf.node_newRoot {n : Nat} :
  Node child (newRoot b f T) (Tables (Roots b (withRoot f live))) n
    ↔ Node child T (Tables (Roots b live)) n ∨ n = f
  := by
  constructor
  · rintro ⟨r, p, hp, hn⟩
    obtain ⟨-, -, rfl⟩ | ⟨-, -, hp', hn'⟩ | ⟨hp', hn'⟩ := h.walk_withRoot hf hp hn
    · right
      rfl
    · left
      exact ⟨b, p, hp', hn'⟩
    · left
      exact ⟨r, p, hp', hn'⟩
  · rintro (⟨r, p, hp, hn⟩ | rfl)
    · exact ⟨r, p, ⟨roots_withRoot.mpr (Or.inr hp.1), hp.2⟩, (h.walk_newRoot hf hp).trans hn⟩
    · exact ⟨n, [], ⟨roots_withRoot.mpr (Or.inl rfl), Nat.zero_le 3⟩, rfl⟩

theorem KernelHalf.lookup_newRoot {r : Nat} (hr : Roots b live r) (a : Nat) :
  lookup (newRoot b f T) r a = lookup T r a
  := by
  rw [lookup, lookup, h.walk_newRoot hf (tables_tablePath hr a)]
  cases ht : walk T r (tablePath a) with
  | none => rfl
  | some t =>
      apply newRoot_of_ne
      rintro rfl
      apply hf
      exact ⟨r, tablePath a, tables_tablePath hr a, ht⟩

omit h hf in
/-- The user half of the new address space is empty. -/
theorem lookup_newRoot_self {a : Nat} (ha : p4Offset a ≠ 511) :
  lookup (newRoot b f T) f a = 0
  := by
  rw [lookup, tablePath, walk_cons, newRoot_user ha]
  rfl

theorem KernelHalf.present_newRoot (hpresent : Present b T live) :
  Present b (newRoot b f T) (withRoot f live)
  := by
  have hold : ∀ {n}, Node child T (Tables (Roots b live)) n → n ≠ f := by
    rintro n hn rfl
    apply hf hn
  have hkernel : ∀ {r p t i}, Roots b live r → p.length ≤ 2 → walk T r p = some t →
      newRoot b f T t i ≠ 0 → isPresent (newRoot b f T t i) = true := by
    intro r p t i hr hp ht hne
    have hdom : Tables (Roots b live) r p := ⟨hr, by omega⟩
    rw [newRoot_of_ne (hold ⟨r, p, hdom, ht⟩)] at hne ⊢
    apply hpresent hr hp ht hne
  intro r p t i hr hp ht hne
  obtain ⟨-, -, rfl⟩ | ⟨-, -, hdom, ht'⟩ | ⟨hdom, ht'⟩ :=
    h.walk_withRoot hf ⟨hr, by omega⟩ ht
  · by_cases hi : i = 511
    · rw [hi, newRoot_kernel]
      have hnil : ([] : List (Fin 512)).length ≤ 2 := Nat.zero_le 2
      apply hpresent (Or.inl rfl) hnil rfl h.boot
    · exact absurd (newRoot_user hi) hne
  · exact hkernel hdom.1 hp ht' hne
  · exact hkernel hdom.1 hp ht' hne

/-- The kernel half after `vmm_new_P4`. -/
theorem KernelHalf.newRoot (hlt : frame f < 2 ^ 39) (hmapped : ¬ Mapped T live f) :
  KernelHalf b (newRoot b f T) (withRoot f live)
  := by
  have hb : b ≠ f := by
    rintro rfl
    apply hf (roots_node (Or.inl rfl))
  refine ⟨⟨?_, ?_, ?_, ?_, ?_, ?_⟩, ?_⟩
  · constructor
    · apply tables_closed
    · intro r s p q t hp hq ht hs
      obtain ⟨rfl, rfl, rfl⟩ | ⟨hrf, hk, hp', ht'⟩ | ⟨hp', ht'⟩ := h.walk_withRoot hf hp ht
      · obtain ⟨rfl, rfl, -⟩ | ⟨-, -, hq', hs'⟩ | ⟨hq', hs'⟩ := h.walk_withRoot hf hq hs
        · exact ⟨rfl, Or.inl rfl⟩
        · exact absurd ⟨b, q, hq', hs'⟩ hf
        · exact absurd ⟨s, q, hq', hs'⟩ hf
      · obtain ⟨-, -, rfl⟩ | ⟨-, -, hq', hs'⟩ | ⟨hq', hs'⟩ := h.walk_withRoot hf hq hs
        · exact absurd ⟨b, p, hp', ht'⟩ hf
        · obtain ⟨hpath, -⟩ := h.forest.unique hp' hq' ht' hs'
          exact ⟨hpath, Or.inr hk⟩
        · obtain ⟨hpath, -⟩ := h.forest.unique hp' hq' ht' hs'
          exact ⟨hpath, Or.inr hk⟩
      · obtain ⟨-, -, rfl⟩ | ⟨-, hk, hq', hs'⟩ | ⟨hq', hs'⟩ := h.walk_withRoot hf hq hs
        · exact absurd ⟨r, p, hp', ht'⟩ hf
        · obtain ⟨hpath, -⟩ := h.forest.unique hp' hq' ht' hs'
          refine ⟨hpath, Or.inr ?_⟩
          rw [hpath]
          apply hk
        · apply h.forest.unique hp' hq' ht' hs'
  · intro r p t i hr hp ht hhuge
    have hnot : ∀ {q}, Tables (Roots b live) q p → walk T q p = some t → t ≠ f := by
      rintro q hq ht' rfl
      exact absurd ⟨q, p, hq, ht'⟩ hf
    obtain ⟨-, -, rfl⟩ | ⟨-, -, hp', ht'⟩ | ⟨hp', ht'⟩ := h.walk_withRoot hf ⟨hr, by omega⟩ ht
    · by_cases hi : i = 511
      · rw [hi, newRoot_kernel] at hhuge
        cases h.huge (p := []) (Or.inl rfl) (Nat.zero_le 2) rfl hhuge
      · rw [newRoot_user hi] at hhuge
        cases hhuge
    · rw [newRoot_of_ne (hnot hp' ht')] at hhuge
      apply h.huge (Or.inl rfl) hp ht' hhuge
    · rw [newRoot_of_ne (hnot hp' ht')] at hhuge
      apply h.huge hp'.1 hp ht' hhuge
  · intro r p t hp ht
    obtain ⟨-, -, rfl⟩ | ⟨-, -, hp', ht'⟩ | ⟨hp', ht'⟩ := h.walk_withRoot hf hp ht
    · apply hlt
    · apply h.direct hp' ht'
    · apply h.direct hp' ht'
  · rw [newRoot_of_ne hb]
    apply h.boot
  · rintro (heq | hlive)
    · apply hb heq
    · apply h.notBoot hlive
  · rintro r (rfl | hr)
    · rw [newRoot_kernel, newRoot_of_ne hb]
    · rw [newRoot_of_ne hb, newRoot_of_ne, h.kernel hr]
      rintro rfl
      apply hf (roots_node (Or.inr hr))
  · rintro n ⟨r, a, rfl | hr, ha, hne, rfl⟩ hnode
    · apply hne
      apply lookup_newRoot_self ha
    · rw [h.lookup_newRoot hf (Or.inr hr)] at hne hnode
      have hn : Mapped T live (lookup T r a / pageSize) := ⟨r, a, hr, ha, hne, rfl⟩
      obtain hnode | heq := (h.node_newRoot hf).mp hnode
      · apply h.mapped hn hnode
      · apply hmapped
        rw [← heq]
        apply hn

end NewP4

/-- `vmm_new_P4` makes an address space with the entry of the kernel only. -/
theorem vmmNewP4_spec {I : List Nat → Machine → Prop} (hI : Source I) {b f : Nat} {s : Machine}
    {fs : List Nat} (hfs : I (f :: fs) s) (hnot : f ∉ fs) (hb : b ≠ f) :
  ∃ s', vmmNewP4 (frame b) s = some (frame f, s')
    ∧ words s'.mem = newRoot b f (words s.mem) ∧ I fs s'
  := by
  obtain ⟨s₁, halloc, hmem, hfs₁⟩ := hI.alloc hfs
  have hclear : words (clearPage s₁ (frame f)).mem = clearFrame (words s.mem) f := by
    rw [words_clearPage, hmem]
  have hentry : entry (clearPage s₁ (frame f)).mem (frame b) 511 = words s.mem b 511 := by
    rw [entry_frame, hclear, clearFrame_of_ne _ _ hb]
  have hlt := words_lt s.mem b 511
  refine ⟨setEntry (clearPage s₁ (frame f)) (frame f) 511 (words s.mem b 511), ?_, ?_, ?_⟩
  · rw [vmmNewP4, halloc]
    simp only [hentry]
  · rw [words_setEntry _ _ _ hlt, hclear, newRoot]
  · apply hI.setEntry (hI.clearPage hfs₁ hnot) hnot hlt

/-! ### Freeing an address space -/

section FreeP4

variable {b r : Nat} {live : Nat → Prop} {T : Words}

/-- The frames of the user half of an address space: the P4, the tables and the pages. -/
def UserFrame (T : Words) (r f : Nat) : Prop :=
  f = r ∨ ∃ e, HasEdge T r e ∧ e.User ∧ f = edgeFrame T r e

/-- The live address spaces without one. -/
def withoutRoot (r : Nat) (live : Nat → Prop) (q : Nat) : Prop :=
  live q ∧ q ≠ r

theorem roots_withoutRoot {q : Nat} (hb : b ≠ r) :
  Roots b (withoutRoot r live) q ↔ Roots b live q ∧ q ≠ r
  := by
  constructor
  · rintro (rfl | ⟨hq, hne⟩)
    · exact ⟨Or.inl rfl, hb⟩
    · exact ⟨Or.inr hq, hne⟩
  · rintro ⟨rfl | hq, hne⟩
    · left
      rfl
    · right
      exact ⟨hq, hne⟩

/-- The edges of the last level are the pages. -/
theorem edge_page {e : Edge} (hlen : e.1.length = 3) :
  ∃ a, tablePath a = e.1 ∧ p1Offset a = e.2
  := by
  obtain ⟨⟨p, i⟩, rfl⟩ : ∃ e', e' = e := ⟨e, rfl⟩
  match p, hlen with
  | [i4, i3, i2], _ =>
      obtain ⟨a, h4, h3, h2, h1⟩ := exists_address i4 i3 i2 i
      refine ⟨a, ?_, h1⟩
      rw [tablePath, h4, h3, h2]

theorem lookup_edge {e : Edge} {a : Nat} (he : HasEdge T r e) (hpath : tablePath a = e.1)
    (hi : p1Offset a = e.2) :
  lookup T r a ≠ 0 ∧ lookup T r a / pageSize = edgeFrame T r e
  := by
  obtain ⟨t, ht, hne⟩ := he
  rw [edgeFrame_eq ht, lookup, hpath, ht]
  simp only [hi]
  exact ⟨hne, trivial⟩

/-- The entry of a user edge above the last level points to a table. -/
theorem KernelTables.walk_edge (h : KernelTables b T live) (hr : live r) {e : Edge}
    (he : HasEdge T r e) (huser : e.User) (hlen : e.1.length ≤ 2) :
  walk T r e.path = some (edgeFrame T r e)
  := by
  obtain ⟨t, ht, hne⟩ := he
  have hsmall : isHuge (T t e.2) = false := by
    by_contra hhuge
    rw [Bool.not_eq_false] at hhuge
    have hpath := h.huge (Or.inr hr) hlen ht hhuge
    apply huser.2
    rw [Edge.path, hpath]
    rfl
  rw [Edge.path, walk_concat, ht, Option.bind_some, child_of_ne hne hsmall, edgeFrame_eq ht]

/-- The frame of a user edge on the last level is that of a page. -/
theorem page_of_edge {e : Edge} (he : HasEdge T r e) (huser : e.User) (hlen : ¬ e.1.length ≤ 2) :
  ∃ a, p4Offset a ≠ 511 ∧ lookup T r a ≠ 0 ∧ lookup T r a / pageSize = edgeFrame T r e
  := by
  have hlen' : e.1.length = 3 := by
    have := huser.1
    omega
  obtain ⟨a, hpath, hi⟩ := edge_page hlen'
  refine ⟨a, ?_, lookup_edge he hpath hi⟩
  intro hkernel
  apply huser.2
  rw [Edge.path, ← hpath, tablePath, hkernel]
  rfl

/-- The user half of a live address space is a tree, when its pages are none of its tables. -/
theorem KernelTables.userTree (h : KernelTables b T live) (hr : live r)
    (hpages : ∀ a q, p4Offset a ≠ 511 → lookup T r a ≠ 0 → q.length ≤ 3 → q.head? ≠ some 511 →
      walk T r q ≠ some (lookup T r a / pageSize)) :
  UserTree T r
  := by
  constructor
  · intro e q he huser hq hq' hwalk
    by_cases hlen : e.1.length ≤ 2
    · have hpath := h.walk_edge hr he huser hlen
      have hlen' : e.path.length ≤ 3 := by
        rw [Edge.path, List.length_append, List.length_singleton]
        omega
      apply (h.forest.unique ⟨Or.inr hr, hq⟩ ⟨Or.inr hr, hlen'⟩ hwalk hpath).1
    · obtain ⟨a, ha, hne, hframe⟩ := page_of_edge he huser hlen
      rw [← hframe] at hwalk
      exact absurd hwalk (hpages a q ha hne hq hq')
  · intro e he huser hlen
    apply h.walk_edge hr he huser hlen

variable (h : KernelHalf b T live) (hr : live r)

include hr

/-- The frame of a user edge on the last level is mapped. -/
theorem mapped_edge {e : Edge} (he : HasEdge T r e) (huser : e.User) (hlen : ¬ e.1.length ≤ 2) :
  Mapped T live (edgeFrame T r e)
  := by
  obtain ⟨a, ha, hne, hframe⟩ := page_of_edge he huser hlen
  exact ⟨r, a, hr, ha, hne, hframe.symm⟩

include h

/-- The user half of a live address space is a tree. -/
theorem KernelHalf.userTree :
  UserTree T r
  := by
  apply h.toKernelTables.userTree hr
  intro a q ha hne hq _ hwalk
  apply h.mapped ⟨r, a, hr, ha, hne, rfl⟩
  exact ⟨r, q, ⟨Or.inr hr, hq⟩, hwalk⟩

/-- No frame of the user half is a table of another address space. -/
theorem KernelHalf.not_node_of_userFrame {f : Nat} (hf : UserFrame T r f) :
  ¬ Node child T (Tables (Roots b (withoutRoot r live))) f
  := by
  have hb : b ≠ r := by
    rintro rfl
    apply h.notBoot hr
  have htable : ∀ p, p.length ≤ 3 → p.head? ≠ some 511 → walk T r p = some f →
      ¬ Node child T (Tables (Roots b (withoutRoot r live))) f := by
    rintro p hp hhead hwalk ⟨q, p', ⟨hq, hp'⟩, hwalk'⟩
    obtain ⟨hq, hne⟩ := (roots_withoutRoot hb).mp hq
    obtain ⟨rfl, rfl | hkernel⟩ :=
      h.forest.unique ⟨hq, hp'⟩ ⟨Or.inr hr, hp⟩ hwalk' hwalk
    · apply hne rfl
    · apply hhead hkernel
  obtain rfl | ⟨e, he, huser, rfl⟩ := hf
  · apply htable [] (Nat.zero_le 3) (by simp) rfl
  · by_cases hlen : e.1.length ≤ 2
    · apply htable e.path _ huser.2 (h.walk_edge hr he huser hlen)
      rw [Edge.path, List.length_append, List.length_singleton]
      omega
    · rintro ⟨q, p, ⟨hq, hp⟩, hwalk⟩
      apply h.mapped (mapped_edge hr he huser hlen)
      exact ⟨q, p, ⟨((roots_withoutRoot hb).mp hq).1, hp⟩, hwalk⟩

omit h hr in
/-- A table of the user half is one of its frames. -/
theorem userFrame_of_walk {p : List (Fin 512)} {t : Nat} (hp : p.length ≤ 3)
    (hhead : p.head? ≠ some 511) (ht : walk T r p = some t) :
  UserFrame T r t
  := by
  induction p using List.reverseRecOn with
  | nil =>
      left
      apply (Option.some.inj ht).symm
  | append_singleton p i _ =>
      right
      obtain ⟨hedge, hframe⟩ := hasEdge_of_walk ht
      refine ⟨(p, i), hedge, ⟨?_, hhead⟩, hframe.symm⟩
      rw [List.length_append] at hp
      apply Nat.le_of_add_right_le hp

/-- Dropping the address space `r` and changing the frames of its user half keeps the others. -/
theorem KernelHalf.walk_withoutRoot {T' : Words}
    (hT : ∀ n, ¬ UserFrame T r n → T' n = T n) {q : Nat} {p : List (Fin 512)}
    (hp : Tables (Roots b (withoutRoot r live)) q p) :
  walk T' q p = walk T q p
  := by
  have hb : b ≠ r := by
    rintro rfl
    apply h.notBoot hr
  have hforest : Forest child T (Tables (Roots b (withoutRoot r live))) UnderKernel := by
    apply h.forest.mono tables_closed
    intro q p hp
    exact ⟨((roots_withoutRoot hb).mp hp.1).1, hp.2⟩
  apply hforest.walk_outside _ hp
  intro n j hn
  rw [hT n]
  intro hframe
  apply h.not_node_of_userFrame hr hframe hn

theorem KernelHalf.node_withoutRoot {T' : Words} (hT : ∀ n, ¬ UserFrame T r n → T' n = T n) {n : Nat} :
  Node child T' (Tables (Roots b (withoutRoot r live))) n
    ↔ Node child T (Tables (Roots b (withoutRoot r live))) n
  := by
  constructor
  · rintro ⟨q, p, hp, hn⟩
    exact ⟨q, p, hp, (h.walk_withoutRoot hr hT hp).symm.trans hn⟩
  · rintro ⟨q, p, hp, hn⟩
    exact ⟨q, p, hp, (h.walk_withoutRoot hr hT hp).trans hn⟩

theorem KernelHalf.lookup_withoutRoot {T' : Words} (hT : ∀ n, ¬ UserFrame T r n → T' n = T n)
    {q : Nat} (hq : Roots b (withoutRoot r live) q) (a : Nat) :
  lookup T' q a = lookup T q a
  := by
  rw [lookup, lookup, h.walk_withoutRoot hr hT (tables_tablePath hq a)]
  cases ht : walk T q (tablePath a) with
  | none => rfl
  | some t =>
      simp only
      rw [hT t]
      intro hframe
      apply h.not_node_of_userFrame hr hframe
      exact ⟨q, tablePath a, tables_tablePath hq a, ht⟩

/-- The kernel half after an address space has been freed. -/
theorem KernelHalf.withoutRoot {T' : Words} (hT : ∀ n, ¬ UserFrame T r n → T' n = T n) :
  KernelHalf b T' (withoutRoot r live)
  := by
  have hb : b ≠ r := by
    rintro rfl
    apply h.notBoot hr
  have hroots : ∀ {q}, Roots b (Mem.withoutRoot r live) q → Roots b live q := by
    intro q hq
    apply ((roots_withoutRoot hb).mp hq).1
  have hrow : ∀ {q p t}, Tables (Roots b (Mem.withoutRoot r live)) q p → walk T q p = some t →
      T' t = T t := by
    intro q p t hp ht
    apply hT
    intro hframe
    apply h.not_node_of_userFrame hr hframe
    exact ⟨q, p, hp, ht⟩
  have hwalk := fun {q p} hp => h.walk_withoutRoot hr hT (q := q) (p := p) hp
  have hrootRow : ∀ {q}, Roots b (Mem.withoutRoot r live) q → T' q = T q := by
    intro q hq
    apply hrow (p := []) ⟨hq, Nat.zero_le 3⟩ rfl
  refine ⟨⟨?_, ?_, ?_, ?_, ?_, ?_⟩, ?_⟩
  · constructor
    · apply tables_closed
    · intro q q' p p' t hp hp' ht ht'
      apply h.forest.unique ⟨hroots hp.1, hp.2⟩ ⟨hroots hp'.1, hp'.2⟩
      · apply (hwalk hp).symm.trans ht
      · apply (hwalk hp').symm.trans ht'
  · intro q p t i hq hp ht hhuge
    have hdom : Tables (Roots b (Mem.withoutRoot r live)) q p := ⟨hq, by omega⟩
    rw [hwalk hdom] at ht
    rw [hrow hdom ht] at hhuge
    apply h.huge (hroots hq) hp ht hhuge
  · intro q p t hp ht
    rw [hwalk hp] at ht
    apply h.direct ⟨hroots hp.1, hp.2⟩ ht
  · rw [hrootRow (Or.inl rfl)]
    apply h.boot
  · rintro ⟨hlive, -⟩
    apply h.notBoot hlive
  · intro q hq
    rw [hrootRow (Or.inr hq), hrootRow (Or.inl rfl)]
    apply h.kernel hq.1
  · rintro f ⟨q, a, hq, ha, hne, rfl⟩ hnode
    rw [h.node_withoutRoot hr hT] at hnode
    rw [h.lookup_withoutRoot hr hT (Or.inr hq)] at hne hnode
    apply h.mapped ⟨q, a, hq.1, ha, hne, rfl⟩
    obtain ⟨q', p, hp, hwalk'⟩ := hnode
    exact ⟨q', p, ⟨hroots hp.1, hp.2⟩, hwalk'⟩

end FreeP4

theorem KernelTables.frame_lt {b r : Nat} {live : Nat → Prop} {T : Words} (h : KernelTables b T live)
    (hr : Roots b live r) :
  frame r < 2 ^ 39
  := h.direct (p := []) ⟨hr, Nat.zero_le 3⟩ rfl

/-- `vmm_free_P4` frees the frames of the user half, and changes no other frame. -/
theorem UserTree.vmmFreeP4 {r : Nat} {s : Machine} (h : UserTree (words s.mem) r)
    (hlt : frame r < 2 ^ 64) :
  ∃ es : List Edge,
    (∀ e, e ∈ es ↔ HasEdge (words s.mem) r e ∧ e.User) ∧ es.Nodup
      ∧ (vmmFreeP4 s (frame r)).taken = s.taken
      ∧ (vmmFreeP4 s (frame r)).freed
        = (r :: es.map (edgeFrame (words s.mem) r)) ++ s.freed
      ∧ (∀ n, ¬ UserFrame (words s.mem) r n →
          words (vmmFreeP4 s (frame r)).mem n = words s.mem n)
      ∧ (∀ fs, Stacked fs s → (∀ f, UserFrame (words s.mem) r f → p2v (frame f) ≠ 0) →
          ((r :: es.map (edgeFrame (words s.mem) r)) ++ fs).Nodup →
          Stacked ((r :: es.map (edgeFrame (words s.mem) r)) ++ fs) (vmmFreeP4 s (frame r)))
  := by
  obtain ⟨es, s', hfrees, hfree, hmem⟩ := vmmFreeP4_spec h
  have htable : ∀ e ∈ es, ∀ t, walk (words s.mem) r e.1 = some t →
      UserFrame (words s.mem) r t := by
    intro e he t ht
    obtain ⟨-, huser⟩ := (hmem e).mp he
    apply userFrame_of_walk huser.1 huser.head ht
  have hpushed : ∀ e ∈ es, UserFrame (words s.mem) r (edgeFrame (words s.mem) r e) := by
    intro e he
    obtain ⟨hedge, huser⟩ := (hmem e).mp he
    right
    exact ⟨e, hedge, huser, rfl⟩
  refine ⟨es, hmem, hfrees.nodup, ?_, ?_, ?_, ?_⟩
  · rw [hfree, (pmmFree_history _ _).1, hfrees.history.1]
  · rw [hfree, (pmmFree_history _ _).2, hfrees.history.2, frame_div]
    rfl
  · intro n hn
    funext j
    rw [hfree, words_pmmFree_of_ne hlt, hfrees.words_eq]
    · intro e he ht
      exact absurd (htable e he n ht) hn
    · left
      rw [List.mem_map]
      rintro ⟨e, he, rfl⟩
      apply hn (hpushed e he)
    · left
      rw [frame_div]
      rintro rfl
      apply hn (Or.inl rfl)
  · intro fs hfs hne hnodup
    rw [List.cons_append, List.nodup_cons] at hnodup
    have hstack := hfrees.stacked hfs hnodup.2 (fun e he => hne _ (hpushed e he)) (by
      intro e he t ht hmem'
      obtain rfl | ⟨e', he', huser, rfl⟩ := htable e he t ht
      · apply hnodup.1 (List.mem_append_right _ hmem')
      · apply (List.nodup_append.mp hnodup.2).2.2 _ _ _ hmem' rfl
        apply List.mem_map_of_mem
        apply (hmem e').mpr ⟨he', huser⟩)
    have hpush := hstack.free hlt
    rw [stripFlags_frame, frame_div] at hpush
    rw [hfree]
    apply hpush (hne r (Or.inl rfl)) hnodup.1

/-- A page that is mapped is an edge of the last level. -/
theorem edge_of_lookup {T : Words} {r a : Nat} (ha : p4Offset a ≠ 511) (hne : lookup T r a ≠ 0) :
  HasEdge T r (tablePath a, p1Offset a) ∧ Edge.User (tablePath a, p1Offset a)
    ∧ edgeFrame T r (tablePath a, p1Offset a) = lookup T r a / pageSize
  := by
  rw [lookup] at hne ⊢
  cases ht : walk T r (tablePath a) with
  | none =>
      rw [ht] at hne
      exact absurd rfl hne
  | some t =>
      rw [ht] at hne
      refine ⟨⟨t, ht, hne⟩, ⟨Nat.le_refl 3, ?_⟩, edgeFrame_eq ht⟩
      intro hhead
      apply ha (Option.some.inj hhead)

/-- `vmm_free_P4` frees the frames of the pages that are mapped. -/
theorem UserTree.mem_freed {r a : Nat} {s : Machine} (h : UserTree (words s.mem) r)
    (hlt : frame r < 2 ^ 64) (ha : p4Offset a ≠ 511) (hne : lookup (words s.mem) r a ≠ 0) :
  lookup (words s.mem) r a / pageSize ∈ (Mem.vmmFreeP4 s (frame r)).freed
  := by
  obtain ⟨es, hes, -, -, hfreed, -⟩ := h.vmmFreeP4 hlt
  obtain ⟨hedge, huser, hframe⟩ := edge_of_lookup ha hne
  rw [hfreed, ← hframe]
  apply List.mem_append_left
  apply List.mem_cons_of_mem
  apply List.mem_map_of_mem
  apply (hes _).mpr ⟨hedge, huser⟩

end Mem
