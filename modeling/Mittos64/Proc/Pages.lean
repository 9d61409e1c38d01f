import Mittos64.Mem.Kernel
import Mittos64.Proc.Procmm

/-!
# The pages of the processes

What the machine must be like for `procmm.c` to work: the address spaces share the kernel half,
the frames of the free stack are not in use, and no frame is mapped at two pages.  Mapping a
page and making the kernel heap larger keep this, take frames off the free stack, and change no
frame that is not a page table.
-/

namespace Procmm

open Mem
open Trie (Forest Node)

/-- The frame is a page table of `BootP4` or of a live address space. -/
abbrev IsTable (b : Nat) (live : Nat → Prop) (s : Machine) (n : Nat) : Prop :=
  Node child (words s.mem) (Tables (Roots b live)) n

/-- The addresses lie in the same page, as far as the page tables go. -/
def SamePage (a c : Nat) : Prop :=
  tablePath c = tablePath a ∧ p1Offset c = p1Offset a

/-- No frame of the address spaces `own` is mapped at two user pages. -/
def Distinct (T : Words) (own live : Nat → Prop) : Prop :=
  ∀ {r a r' a'}, own r → live r' → p4Offset a ≠ 511 → p4Offset a' ≠ 511 →
    lookup T r a ≠ 0 → lookup T r' a' ≠ 0 →
    lookup T r a / pageSize = lookup T r' a' / pageSize → r = r' ∧ SamePage a a'

/-- The machine with the free frames `fs` and the address spaces `live`, of which those in `own`
share no frame. -/
structure Sound (b : Nat) (own live : Nat → Prop) (fs : List Nat) (s : Machine) : Prop where
  half : KernelHalf b (words s.mem) live
  present : Present b (words s.mem) live
  stack : Stacked fs s
  nodup : fs.Nodup
  unused : ∀ f ∈ fs, Unused b (words s.mem) live f
  distinct : Distinct (words s.mem) own live
  nonzero : ¬ live 0
  owned : ∀ {r}, own r → live r

/-- The machine `s'` is the machine `s` with some of the frames `used` as new page tables. -/
structure Grows (b : Nat) (live : Nat → Prop) (used : List Nat) (s s' : Machine) : Prop where
  mono : ∀ {n}, IsTable b live s n → IsTable b live s' n
  new : ∀ {n}, IsTable b live s' n → IsTable b live s n ∨ n ∈ used
  kept : Kept b live (words s.mem) (words s'.mem)
  words_eq : ∀ {n}, ¬ IsTable b live s' n → words s'.mem n = words s.mem n
  freed : s'.freed = s.freed

theorem Grows.refl {b : Nat} {live : Nat → Prop} {s : Machine} :
  Grows b live [] s s
  := ⟨id, Or.inl, fun _ _ _ _ => rfl, fun _ => rfl, rfl⟩

theorem Grows.trans {b : Nat} {live : Nat → Prop} {used used' : List Nat} {s s' s'' : Machine}
    (h : Grows b live used s s') (h' : Grows b live used' s' s'') :
  Grows b live (used ++ used') s s''
  where
  mono hn := h'.mono (h.mono hn)
  new {n} hn := by
    obtain hn | hn := h'.new hn
    · obtain hn | hn := h.new hn
      · exact Or.inl hn
      · exact Or.inr (List.mem_append_left _ hn)
    · exact Or.inr (List.mem_append_right _ hn)
  kept {r p t i} hr hp ht hne := by
    have hsame := h.kept hr hp ht hne
    rw [← hsame] at hne
    rw [h'.kept hr hp (Kept.walk h.kept hr (by omega) ht) hne, hsame]
  words_eq {n} hn := by
    have hn' : ¬ IsTable b live s' n := fun ht => hn (h'.mono ht)
    rw [h'.words_eq hn, h.words_eq hn']
  freed := by rw [h'.freed, h.freed]

/-! ### Addresses -/

/-- An address below `USERSPACE_TOP` is not in the kernel half. -/
theorem user_ne_kernel {a : Nat} (ha : a < userspaceTop) :
  p4Offset a ≠ 511 ∧ ¬ UnderHuge a
  := by
  have hne : p4Offset a ≠ 511 := by
    intro heq
    have hval := tableOffset_val 39 a
    rw [← p4Offset, heq] at hval
    rw [userspaceTop] at ha
    change 511 = a / 2 ^ 39 % 512 at hval
    omega
  exact ⟨hne, fun hhuge => hne hhuge.1⟩

/-- The offsets of an address are the digits of its page. -/
theorem samePage_iff_mod {a c : Nat} :
  SamePage a c ↔ c / pageSize % 2 ^ 36 = a / pageSize % 2 ^ 36
  := by
  have h4a := tableOffset_val 39 a
  have h4c := tableOffset_val 39 c
  have h3a := tableOffset_val 30 a
  have h3c := tableOffset_val 30 c
  have h2a := tableOffset_val 21 a
  have h2c := tableOffset_val 21 c
  have h1a := tableOffset_val 12 a
  have h1c := tableOffset_val 12 c
  rw [SamePage, tablePath, tablePath, List.cons.injEq, List.cons.injEq, List.cons.injEq]
  simp only [p4Offset, p3Offset, p2Offset, p1Offset, Fin.ext_iff, pageSize]
  constructor
  · rintro ⟨⟨h4, h3, h2, -⟩, h1⟩
    omega
  · intro h
    refine ⟨⟨?_, ?_, ?_, trivial⟩, ?_⟩
    · omega
    · omega
    · omega
    · omega

theorem samePage_iff {a c : Nat} (ha : a < 2 ^ 48) (hc : c < 2 ^ 48) :
  SamePage a c ↔ c / pageSize = a / pageSize
  := by
  rw [samePage_iff_mod, pageSize]
  omega

/-! ### Mapping one page -/

section MapPage

variable {b r a P4 : Nat} {own live : Nat → Prop} {fs : List Nat} {s : Machine}

/-- The frames to come are still free after a page has been mapped to a frame of the stack. -/
theorem unused_of_setLookup {s' : Machine} {f g v : Nat} {new : List Nat}
    (hg : Unused b (words s.mem) live g) (hgf : g ≠ f) (hnew : g ∉ new) (hv : v / pageSize = f)
    (hnode : ∀ n, IsTable b live s' n ↔ IsTable b live s n ∨ n ∈ new)
    (hlookup : ∀ q c, Roots b live q →
      lookup (words s'.mem) q c = setLookup (words s.mem) r a v q c) :
  Unused b (words s'.mem) live g
  := by
  refine ⟨hg.1, ?_, ?_⟩
  · intro hn
    obtain hn | hn := (hnode g).mp hn
    · exact hg.2.1 hn
    · exact hnew hn
  · rintro ⟨q, c, hq, hc, hne, heq⟩
    rw [hlookup q c (Or.inr hq), setLookup] at hne heq
    split_ifs at hne heq
    · exact hgf (heq.trans hv)
    · exact hg.2.2 ⟨q, c, hq, hc, hne, heq⟩

/-- No frame is mapped at two pages after a page has been mapped to a frame that was not in
use. -/
theorem distinct_of_setLookup {s' : Machine} {f v : Nat} (h : Distinct (words s.mem) own live)
    (howned : ∀ {r}, own r → live r) (hf : ¬ Mapped (words s.mem) live f) (hv : v / pageSize = f)
    (hlookup : ∀ q c, Roots b live q →
      lookup (words s'.mem) q c = setLookup (words s.mem) r a v q c) :
  Distinct (words s'.mem) own live
  := by
  intro q c q' c' hq hq' hc hc' hne hne' heq
  rw [hlookup q c (Or.inr (howned hq)), setLookup] at hne heq
  rw [hlookup q' c' (Or.inr hq'), setLookup] at hne' heq
  split_ifs at hne hne' heq with hpage hpage' hpage'
  · obtain ⟨⟨hpath, hp1⟩, hroot⟩ := hpage
    obtain ⟨⟨hpath', hp1'⟩, hroot'⟩ := hpage'
    have hpc : p4Offset c = p4Offset a := (List.cons.inj hpath).1
    rw [hpc] at hc
    obtain rfl := hroot.resolve_right hc
    obtain rfl := hroot'.resolve_right hc
    exact ⟨rfl, hpath'.trans hpath.symm, hp1'.trans hp1.symm⟩
  · exact absurd ⟨q', c', hq', hc', hne', hv.symm.trans heq⟩ hf
  · exact absurd ⟨q, c, howned hq, hc, hne, hv.symm.trans heq.symm⟩ hf
  · exact h hq hq' hc hc' hne hne' heq

/-- `vmm_set_page` with a frame from the free stack. -/
theorem Sound.mapPage (h : Sound b own live fs s) (hr : Roots b live r)
    (hroot : resolveP4 (frame b) P4 = frame r) (ha : ¬ UnderHuge a) (flags : Nat) :
  (∃ s' f new fs', fs = f :: new ++ fs' ∧ mapPage (frame b) flags s P4 a = some s'
      ∧ new.length ≤ 3 ∧ Sound b own live fs' s' ∧ Grows b live (f :: new) s s'
      ∧ ¬ IsTable b live s' f
      ∧ ∀ q c, Roots b live q → lookup (words s'.mem) q c
          = setLookup (words s.mem) r a (addFlags (frame f) flags) q c)
    ∨ (fs.length < 4 ∧ Procmm.mapPage (frame b) flags s P4 a = none)
  := by
  cases fs with
  | nil =>
      right
      refine ⟨by decide, ?_⟩
      rw [Procmm.mapPage, h.stack.alloc_empty]
  | cons f fs =>
      obtain ⟨hnot, hnodup⟩ := List.nodup_cons.mp h.nodup
      have hf := h.unused f List.mem_cons_self
      have hI := stacked_source.freed s.freed
      obtain ⟨s₁, halloc, hmem, hfs⟩ := hI.alloc ⟨h.stack, rfl⟩
      have hphys : frame f < 2 ^ 64 := (p2v_ne_zero hf.1).2
      have hhalf : KernelHalf b (words s₁.mem) live := by
        rw [hmem]
        exact h.half
      have hunused : ∀ g ∈ fs, Unused b (words s₁.mem) live g := by
        rw [hmem]
        exact fun g hg => h.unused g (List.mem_cons_of_mem f hg)
      obtain ⟨s', new, fs', rfl, hset, hhalf', hlookup, hnode, hwords, hkept, hpresent, hlen,
          hstack, hfreed⟩ |
          ⟨hlen, u, hu, hnone⟩ :=
        hhalf.vmmSetPage hI flags hr hroot ha hphys hfs hnodup hunused
          (by rw [hmem, frame_div]; exact fun _ _ _ => ⟨hf.2.1, hnot⟩)
      · left
        rw [hmem] at hlookup hnode hwords hkept hpresent
        obtain ⟨-, hnodup', hdisj⟩ := List.nodup_append.mp hnodup
        have hv : addFlags (frame f) flags / pageSize = f := by
          rw [addFlags_div, frame_div]
        have hftable : ¬ IsTable b live s' f := by
          intro hn
          obtain hn | hn := (hnode f).mp hn
          · exact hf.2.1 hn
          · exact hnot (List.mem_append_left _ hn)
        refine ⟨s', f, new, fs', rfl, ?_, hlen, ?_, ?_, hftable, hlookup⟩
        · rw [Procmm.mapPage, halloc]
          simp only [hset, Option.map_some]
        · refine ⟨hhalf', hpresent h.present, hstack, hnodup', ?_, ?_, h.nonzero, h.owned⟩
          · intro g hg
            apply unused_of_setLookup (h.unused g _) _ _ hv hnode hlookup
            · exact List.mem_cons_of_mem f (List.mem_append_right _ hg)
            · rintro rfl
              exact hnot (List.mem_append_right _ hg)
            · intro hmem'
              exact hdisj g hmem' g hg rfl
          · exact distinct_of_setLookup h.distinct h.owned hf.2.2 hv hlookup
        · constructor
          · intro n hn
            exact (hnode n).mpr (Or.inl hn)
          · intro n hn
            obtain hn | hn := (hnode n).mp hn
            · exact Or.inl hn
            · exact Or.inr (List.mem_cons_of_mem f hn)
          · exact hkept
          · intro n hn
            have hn' := mt (hnode n).mpr hn
            exact hwords n (fun ht => hn' (Or.inl ht)) (fun ht => hn' (Or.inr ht))
          · exact hfreed
      · right
        have hle := missing_le (words s₁.mem) r (tablePath a)
        rw [tablePath_length] at hle
        constructor
        · rw [List.length_cons]
          omega
        · rw [Procmm.mapPage, halloc]
          simp only [hnone hu.1.alloc_empty, Option.map_none]

end MapPage

/-! ### Mapping the pages of an area -/

/-- The address lies in one of the pages that a loop from `p` on while `p < stop` goes through. -/
def Stepped (p stop c : Nat) : Prop :=
  ∃ i < turns p stop, SamePage (p + pageSize * i) c

theorem turns_of_le {p stop : Nat} (h : stop ≤ p) :
  turns p stop = 0
  := by
  rw [turns, pageSize]
  omega

theorem turns_of_lt {p stop : Nat} (h : p < stop) :
  turns p stop = turns (p + pageSize) stop + 1
  := by
  rw [turns, turns, pageSize]
  omega

theorem not_stepped_of_le {p stop c : Nat} (h : stop ≤ p) :
  ¬ Stepped p stop c
  := by
  rintro ⟨i, hi, -⟩
  rw [turns_of_le h] at hi
  exact Nat.not_lt_zero i hi

/-- The first page and the other ones. -/
theorem stepped_of_lt {p stop c : Nat} (h : p < stop) :
  Stepped p stop c ↔ SamePage p c ∨ Stepped (p + pageSize) stop c
  := by
  have hturns := turns_of_lt h
  have hnext : ∀ i, p + pageSize + pageSize * i = p + pageSize * (i + 1) := by
    intro i
    rw [Nat.mul_succ, Nat.add_assoc, Nat.add_comm pageSize]
  constructor
  · rintro ⟨i, hi, hpage⟩
    cases i with
    | zero => exact Or.inl hpage
    | succ i =>
        right
        refine ⟨i, by omega, ?_⟩
        rwa [hnext i]
  · rintro (hpage | ⟨i, hi, hpage⟩)
    · exact ⟨0, by omega, hpage⟩
    · refine ⟨i + 1, by omega, ?_⟩
      rwa [← hnext i]

/-- The turns of the loop. -/
theorem lt_turns_iff {p stop i : Nat} :
  i < turns p stop ↔ p + pageSize * i < stop
  := by
  rw [turns, pageSize]
  omega

/-- The pages of an area that starts at a page. -/
theorem stepped_iff {p stop c : Nat} (hp : p % pageSize = 0) (hstop : stop ≤ userspaceTop)
    (hc : c < userspaceTop) :
  Stepped p stop c ↔ p ≤ c ∧ stripFlags c < stop
  := by
  have hpage : ∀ i, p + pageSize * i < stop →
      (SamePage (p + pageSize * i) c ↔ c / pageSize = p / pageSize + i) := by
    intro i hi
    rw [userspaceTop] at hstop hc
    rw [samePage_iff (by omega) (by omega), Nat.add_mul_div_left _ _ (by decide)]
  rw [stripFlags]
  constructor
  · rintro ⟨i, hi, hsame⟩
    rw [lt_turns_iff] at hi
    rw [hpage i hi] at hsame
    rw [pageSize] at hp hi hsame ⊢
    omega
  · rintro ⟨hle, hlt⟩
    have hi : p + pageSize * (c / pageSize - p / pageSize) < stop := by
      rw [pageSize] at hp hlt ⊢
      omega
    refine ⟨c / pageSize - p / pageSize, lt_turns_iff.mpr hi, (hpage _ hi).mpr ?_⟩
    rw [pageSize]
    omega

/-- The pages of an area below `USERSPACE_TOP` are pages of a user. -/
theorem Stepped.user {p stop c : Nat} (h : Stepped p stop c) (hstop : stop ≤ userspaceTop) :
  p4Offset c ≠ 511
  := by
  obtain ⟨i, hi, hpath, -⟩ := h
  rw [lt_turns_iff] at hi
  rw [(List.cons.inj hpath).1]
  exact (user_ne_kernel (Nat.lt_of_lt_of_le hi hstop)).1

theorem userFlags_entry (f : Nat) :
  addFlags (frame f) userFlags ≠ 0 ∧ addFlags (frame f) userFlags / pageSize = f
  := by
  refine ⟨(child_addFlags f).1, ?_⟩
  rw [addFlags_div, frame_div]

theorem resolveP4_frame {b r : Nat} (hr : r ≠ 0) :
  resolveP4 (frame b) (frame r) = frame r
  := by
  rw [resolveP4, if_neg]
  rw [frame, pageSize]
  omega

/-- The pages of an address space after some have been mapped to the frames `used`. -/
structure Mapping (b : Nat) (live : Nat → Prop) (r p stop : Nat) (used : List Nat)
    (s s' : Machine) : Prop where
  other : ∀ {q c}, Roots b live q → ¬ (q = r ∧ Stepped p stop c) →
    lookup (words s'.mem) q c = lookup (words s.mem) q c
  page : ∀ {c}, Stepped p stop c → ∃ f ∈ used,
    lookup (words s'.mem) r c = addFlags (frame f) userFlags

section MapPages

variable {b r stop : Nat} {own live : Nat → Prop}

/-- One more page before the others. -/
theorem Mapping.cons {p : Nat} {used used' : List Nat} {f : Nat} {s s₁ s' : Machine}
    (hr : live r) (hp : p < stop) (hstop : stop ≤ userspaceTop) (hf : f ∈ used)
    (hlookup : ∀ q c, Roots b live q → lookup (words s₁.mem) q c
      = setLookup (words s.mem) r p (addFlags (frame f) userFlags) q c)
    (h : Mapping b live r (p + pageSize) stop used' s₁ s') :
  Mapping b live r p stop (used ++ used') s s'
  := by
  have huser : p4Offset p ≠ 511 := (user_ne_kernel (by omega)).1
  constructor
  · intro q c hq hnot
    have hnot' : ¬ (q = r ∧ Stepped (p + pageSize) stop c) := by
      rintro ⟨heq, hstep⟩
      exact hnot ⟨heq, (stepped_of_lt hp).mpr (Or.inr hstep)⟩
    rw [h.other hq hnot', hlookup q c hq, setLookup, if_neg]
    rintro ⟨hpage, heq | hkernel⟩
    · exact hnot ⟨heq, (stepped_of_lt hp).mpr (Or.inl hpage)⟩
    · exact huser hkernel
  · intro c hstep
    by_cases hrest : Stepped (p + pageSize) stop c
    · obtain ⟨g, hg, heq⟩ := h.page hrest
      exact ⟨g, List.mem_append_right _ hg, heq⟩
    · have hpage := ((stepped_of_lt hp).mp hstep).resolve_right hrest
      refine ⟨f, List.mem_append_left _ hf, ?_⟩
      rw [h.other (Or.inr hr) (fun hand => hrest hand.2), hlookup r c (Or.inr hr), setLookup,
        if_pos ⟨hpage, Or.inl rfl⟩]

/-- The loop that maps the pages of an area. -/
theorem Sound.mapPages {p fuel : Nat} {fs : List Nat} {s : Machine} (h : Sound b own live fs s)
    (hr : live r) (hstop : stop ≤ userspaceTop) (hfuel : turns p stop < fuel) :
  (∃ s' used fs', fs = used ++ fs' ∧ used.length ≤ 4 * turns p stop
      ∧ mapPages (frame b) fuel s (frame r) p stop = some s'
      ∧ Sound b own live fs' s' ∧ Grows b live used s s' ∧ Mapping b live r p stop used s s')
    ∨ (fs.length < 4 * turns p stop ∧ Procmm.mapPages (frame b) fuel s (frame r) p stop = none)
  := by
  induction fuel generalizing p fs s with
  | zero => exact absurd hfuel (Nat.not_lt_zero _)
  | succ fuel ih =>
      by_cases hp : p < stop
      · have hturns := turns_of_lt hp
        have hnonzero : r ≠ 0 := by
          rintro rfl
          exact h.nonzero hr
        have hinc : incptr p pageSize = p + pageSize := by
          apply incptr_of_lt
          rw [userspaceTop] at hstop
          rw [pageSize]
          omega
        obtain ⟨s₁, f, new, fs₁, rfl, hmap, hnew, hsound, hgrows, hf, hlookup⟩ | ⟨hlen, hnone⟩ :=
          h.mapPage (Or.inr hr) (resolveP4_frame hnonzero)
            (user_ne_kernel (show p < userspaceTop by omega)).2 userFlags
        · obtain ⟨s', used, fs', rfl, hused, hmaps, hsound', hgrows', hmapping⟩ | ⟨hlen, hnone⟩ :=
            ih (p := p + pageSize) hsound (by omega)
          · left
            refine ⟨s', f :: new ++ used, fs', by rw [List.append_assoc], ?_, ?_, hsound',
              hgrows.trans hgrows', ?_⟩
            · simp only [List.length_append, List.length_cons]
              omega
            · rw [Procmm.mapPages, if_pos hp, hmap]
              dsimp only
              rw [hinc, hmaps]
            · exact hmapping.cons hr hp hstop List.mem_cons_self hlookup
          · right
            constructor
            · simp only [List.length_append, List.length_cons]
              omega
            · rw [Procmm.mapPages, if_pos hp, hmap]
              dsimp only
              rw [hinc, hnone]
        · right
          refine ⟨by omega, ?_⟩
          rw [Procmm.mapPages, if_pos hp, hnone]
      · left
        refine ⟨s, [], fs, rfl, Nat.zero_le _, ?_, h, Grows.refl, ?_⟩
        · rw [Procmm.mapPages, if_neg hp]
        · constructor
          · intro q c _ _
            rfl
          · intro c hstep
            exact absurd hstep (not_stepped_of_le (Nat.le_of_not_lt hp))

end MapPages

/-! ### The kernel heap -/

/-- The addresses of the heap are not those of the direct map. -/
theorem heap_not_huge {a : Nat} (ha : kernelHeapS ≤ a) (ha' : a < 2 ^ 64) :
  p4Offset a = 511 ∧ ¬ UnderHuge a
  := by
  have h4 := tableOffset_val 39 a
  have h3 := tableOffset_val 30 a
  rw [kernelHeapS] at ha
  refine ⟨Fin.ext (h4.trans ?_), ?_⟩
  · change a / 2 ^ 39 % 512 = 511
    omega
  · rintro ⟨-, hp3⟩
    rw [← p3Offset, hp3] at h3
    change 0 = a / 2 ^ 30 % 512 at h3
    omega

/-- The pages of the heap are not pages of a user. -/
theorem not_stepped_heap {brk stop c : Nat} (hbrk : kernelHeapS ≤ brk) (hstop : stop ≤ 2 ^ 64)
    (hc : p4Offset c ≠ 511) :
  ¬ Stepped brk stop c
  := by
  rintro ⟨i, hi, hpath, -⟩
  rw [lt_turns_iff] at hi
  apply hc
  rw [(List.cons.inj hpath).1]
  exact (heap_not_huge (Nat.le_trans hbrk (Nat.le_add_right _ _)) (by omega)).1

/-- The loop of `ksbrk` maps pages of the kernel. -/
theorem Sound.growHeap {b : Nat} {own live : Nat → Prop} {n brk : Nat} {fs : List Nat} {s : Machine}
    (h : Sound b own live fs s) (hbrk : kernelHeapS ≤ brk) (hend : brk + pageSize * n ≤ 2 ^ 64) :
  (∃ s' used fs', fs = used ++ fs' ∧ used.length ≤ 4 * n
      ∧ growHeap (frame b) n s brk = some (s', brk + pageSize * n)
      ∧ Sound b own live fs' s' ∧ Grows b live used s s'
      ∧ ∀ q c, Roots b live q → ¬ Stepped brk (brk + pageSize * n) c →
          lookup (words s'.mem) q c = lookup (words s.mem) q c)
    ∨ (fs.length < 4 * n ∧ Procmm.growHeap (frame b) n s brk = none)
  := by
  induction n generalizing brk fs s with
  | zero =>
      left
      exact ⟨s, [], fs, rfl, Nat.zero_le _, rfl, h, Grows.refl, fun _ _ _ _ => rfl⟩
  | succ n ih =>
      have hsum : brk + pageSize + pageSize * n = brk + pageSize * (n + 1) := by
        rw [Nat.mul_succ, Nat.add_assoc, Nat.add_comm pageSize]
      have hle : brk + pageSize ≤ 2 ^ 64 := by
        rw [← hsum] at hend
        omega
      have hlt : brk < 2 ^ 64 := Nat.lt_of_lt_of_le (Nat.lt_add_of_pos_right (by decide)) hle
      have hstep : brk < brk + pageSize * (n + 1) := Nat.lt_add_of_pos_right (by simp [pageSize])
      obtain ⟨s₁, f, new, fs₁, rfl, hmap, hnew, hsound, hgrows, hf, hlookup⟩ | ⟨hlen, hnone⟩ :=
        @Sound.mapPage b b brk 0 own live fs s h (Or.inl rfl) rfl (heap_not_huge hbrk hlt).2
          (pagePresent ||| pageWrite)
      · obtain ⟨s', used, fs', rfl, hused, hgrow, hsound', hgrows', hlookup'⟩ | ⟨hlen, hnone⟩ :=
          @ih (brk + pageSize) fs₁ s₁ hsound (by omega) (by omega)
        · left
          refine ⟨s', f :: new ++ used, fs', by rw [List.append_assoc], ?_, ?_, hsound',
            hgrows.trans hgrows', ?_⟩
          · simp only [List.length_append, List.length_cons]
            omega
          · rw [Procmm.growHeap, if_pos hle, hmap]
            dsimp only
            rw [hgrow, hsum]
          · intro q c hq hnot
            rw [stepped_of_lt hstep, not_or, ← hsum] at hnot
            rw [hlookup' q c hq hnot.2, hlookup q c hq, setLookup, if_neg]
            rintro ⟨hpage, -⟩
            exact hnot.1 hpage
        · right
          constructor
          · simp only [List.length_append, List.length_cons]
            omega
          · rw [Procmm.growHeap, if_pos hle, hmap]
            dsimp only
            rw [hnone]
      · right
        refine ⟨by omega, ?_⟩
        rw [Procmm.growHeap, if_pos hle, hnone]

/-! ### A new address space -/

/-- `vmm_new_P4` -/
theorem Sound.newP4 {b f : Nat} {own live : Nat → Prop} {fs : List Nat} {s : Machine}
    (h : Sound b own live (f :: fs) s) (hf : f ≠ 0) :
  ∃ s', vmmNewP4 (frame b) s = some (frame f, s') ∧ Sound b (withRoot f own) (withRoot f live) fs s'
    ∧ s'.freed = s.freed
    ∧ (∀ n, IsTable b (withRoot f live) s' n ↔ IsTable b live s n ∨ n = f)
    ∧ (∀ n, n ≠ f → words s'.mem n = words s.mem n)
    ∧ (∀ q c, Roots b live q → lookup (words s'.mem) q c = lookup (words s.mem) q c)
    ∧ ∀ c, p4Offset c ≠ 511 → lookup (words s'.mem) f c = 0
  := by
  obtain ⟨hlt, hnode, hmapped⟩ := h.unused f List.mem_cons_self
  obtain ⟨hnot, hnodup⟩ := List.nodup_cons.mp h.nodup
  have hb : b ≠ f := by
    rintro rfl
    exact hnode (roots_node (Or.inl rfl))
  have hlive : ∀ {q}, live q → q ≠ f := by
    rintro q hq rfl
    exact hnode (roots_node (Or.inr hq))
  obtain ⟨s', hnew, hwords, hstack, hfreed⟩ :=
    vmmNewP4_spec (stacked_source.freed s.freed) ⟨h.stack, rfl⟩ hnot hb
  have hother : ∀ n, n ≠ f → words s'.mem n = words s.mem n := by
    intro n hn
    funext j
    rw [hwords, newRoot_of_ne hn]
  have hlookup : ∀ q c, Roots b live q →
      lookup (words s'.mem) q c = lookup (words s.mem) q c := by
    intro q c hq
    rw [hwords, h.half.lookup_newRoot hnode hq]
  have hself : ∀ c, p4Offset c ≠ 511 → lookup (words s'.mem) f c = 0 := by
    intro c hc
    rw [hwords, lookup_newRoot_self hc]
  have htable : ∀ n, IsTable b (withRoot f live) s' n ↔ IsTable b live s n ∨ n = f := by
    intro n
    rw [IsTable, hwords, h.half.node_newRoot hnode]
  have hold : ∀ {q c}, withRoot f live q → p4Offset c ≠ 511 → lookup (words s'.mem) q c ≠ 0 →
      live q ∧ lookup (words s'.mem) q c = lookup (words s.mem) q c := by
    rintro q c (rfl | hq) hc hne
    · exact absurd (hself c hc) hne
    · exact ⟨hq, hlookup q c (Or.inr hq)⟩
  have howned : ∀ {q}, withRoot f own q → withRoot f live q := by
    rintro q (rfl | hq)
    · exact Or.inl rfl
    · exact Or.inr (h.owned hq)
  refine ⟨s', hnew, ?_, hfreed, htable, hother, hlookup, hself⟩
  refine ⟨?_, ?_, hstack, hnodup, ?_, ?_, ?_, howned⟩
  · rw [hwords]
    apply h.half.newRoot hnode hlt hmapped
  · rw [hwords]
    exact h.half.present_newRoot hnode h.present
  · intro g hg
    obtain ⟨hglt, hgnode, hgmapped⟩ := h.unused g (List.mem_cons_of_mem f hg)
    refine ⟨hglt, ?_, ?_⟩
    · intro hn
      obtain hn | rfl := (htable g).mp hn
      · exact hgnode hn
      · exact hnot hg
    · rintro ⟨q, c, hq, hc, hne, heq⟩
      obtain ⟨hq', hlook⟩ := hold hq hc hne
      rw [hlook] at hne heq
      exact hgmapped ⟨q, c, hq', hc, hne, heq⟩
  · intro q c q' c' hq hq' hc hc' hne hne' heq
    obtain ⟨-, hlook⟩ := hold (howned hq) hc hne
    obtain ⟨hq₁', hlook'⟩ := hold hq' hc' hne'
    obtain rfl | hq₁ := hq
    · exact absurd (hself c hc) hne
    rw [hlook] at hne heq
    rw [hlook'] at hne' heq
    exact h.distinct hq₁ hq₁' hc hc' hne hne' heq
  · rintro (rfl | hzero)
    · exact hf rfl
    · exact h.nonzero hzero

/-! ### Writing to other frames -/

/-- Words that are neither in tables nor links of the free stack may change. -/
theorem Sound.withMem {b : Nat} {own live : Nat → Prop} {fs : List Nat} {s : Machine} {mem : Memory}
    (h : Sound b own live fs s)
    (htable : ∀ n, IsTable b live s n → words mem n = words s.mem n)
    (hlink : ∀ f ∈ fs, words mem f 0 = words s.mem f 0) :
  Sound b own live fs (s.withMem mem)
    ∧ (∀ n, IsTable b live (s.withMem mem) n ↔ IsTable b live s n)
    ∧ ∀ q c, Roots b live q → lookup (words mem) q c = lookup (words s.mem) q c
  := by
  have hnode : ∀ n, IsTable b live (s.withMem mem) n ↔ IsTable b live s n :=
    fun n => h.half.toKernelTables.node_congr htable
  have hlookup : ∀ q c, Roots b live q → lookup (words mem) q c = lookup (words s.mem) q c :=
    fun q c hq => h.half.toKernelTables.lookup_congr htable hq c
  refine ⟨⟨?_, ?_, ?_, h.nodup, ?_, ?_, h.nonzero, h.owned⟩, hnode, hlookup⟩
  · exact KernelHalf.congr htable h.half
  · exact h.half.toKernelTables.present_congr htable h.present
  · exact stacked_source.withMem h.stack hlink
  · intro f hf
    obtain ⟨hlt, hn, hmapped⟩ := h.unused f hf
    refine ⟨hlt, fun hn' => hn ((hnode f).mp hn'), ?_⟩
    rintro ⟨q, c, hq, hc, hne, heq⟩
    rw [Machine.withMem_mem, hlookup q c (Or.inr hq)] at hne heq
    exact hmapped ⟨q, c, hq, hc, hne, heq⟩
  · intro q c q' c' hq hq' hc hc' hne hne' heq
    rw [Machine.withMem_mem, hlookup q c (Or.inr (h.owned hq))] at hne heq
    rw [Machine.withMem_mem, hlookup q' c' (Or.inr hq')] at hne'
    rw [hlookup q' c' (Or.inr hq')] at heq
    exact h.distinct hq hq' hc hc' hne hne' heq

end Procmm
