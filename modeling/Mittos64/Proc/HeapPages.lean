import Mittos64.Lib.Run
import Mittos64.Mem.HeapSpec
import Mittos64.Proc.Copy
import Mittos64.Proc.Start

/-!
# The pages of the kernel heap

`ksbrk` on the machine: it maps the pages of the heap in `BootP4`, each to a frame from
`pmm_alloc`, while `vmm_set_page` may take further frames for page tables.  The heap is mapped up
to `brk`, page by page, and its logical end `heap_max` moves by any number of bytes behind it.

In every state of a run of `ksbrk`, every page of the heap has a frame of its own, and keeps it.
So the memory of the kernel heap, as `kmalloc` and `kfree` see it, is that of the machine at the
addresses of the heap: `ksbrk` there is what `ksbrk` on the machine is to them.
-/

namespace Procmm

open Mem

/-- The machine with the globals `heap_max` and `brk`. -/
structure HeapEnd where
  machine : Machine
  heapMax : Nat
  brk : Nat

/-- The flags of the pages of the heap. -/
def heapFlags : Nat := pagePresent ||| pageWrite

/-- The loop of `ksbrk` while `brk < top`. -/
def brkPages (bootP4 top : Nat) : Nat → Machine → Nat → Option (Machine × Nat)
  | 0, _, _ => none
  | fuel + 1, s, brk =>
      if brk < top then
        match mapPage bootP4 heapFlags s 0 brk with
        | none => none
        | some s => brkPages bootP4 top fuel s (incptr brk pageSize)
      else some (s, brk)

/-- `ksbrk(size)`, with the value it returns. -/
def ksbrk (bootP4 fuel : Nat) (k : HeapEnd) (size : Nat) : Option (Nat × HeapEnd) :=
  match brkPages bootP4 (incptr k.heapMax size) fuel k.machine k.brk with
  | none => none
  | some (s, brk) =>
      let heapMax := incptr k.heapMax size
      some (heapMax, { machine := s, heapMax := heapMax, brk := brk })

/-! ### The pages below `brk` -/

/-- The pages of the heap below `brk` are mapped to the frames `ms`, in their order.  These are
different frames, none of them is free, a page table or mapped for a user. -/
structure HeapPages (b : Nat) (live : Nat → Prop) (fs : List Nat) (s : Machine) (brk : Nat)
    (ms : List Nat) : Prop where
  sound : Sound b (fun _ => False) live fs s
  brk_eq : brk = kernelHeapS + pageSize * ms.length
  brk_le : brk ≤ 2 ^ 64
  page : ∀ {i f a}, ms[i]? = some f → a / pageSize = kernelHeapS / pageSize + i →
    lookup (words s.mem) b a = addFlags (frame f) heapFlags
  nodup : (ms ++ fs).Nodup
  notTable : ∀ f ∈ ms, ¬ IsTable b live s f
  notMapped : ∀ f ∈ ms, ¬ Mapped (words s.mem) live f
  direct : ∀ f ∈ ms, frame f < 2 ^ 39

/-- Two addresses of the heap lie in the same page when they have the same page number. -/
theorem samePage_heap {a c : Nat} (ha : kernelHeapS ≤ a) (ha' : a < 2 ^ 64) (hc : kernelHeapS ≤ c)
    (hc' : c < 2 ^ 64) :
  SamePage a c ↔ c / pageSize = a / pageSize
  := by
  rw [samePage_iff_mod]
  rw [kernelHeapS] at ha hc
  rw [pageSize]
  omega

theorem heapFlags_entry (f : Nat) :
  addFlags (frame f) heapFlags / pageSize = f
  := by
  rw [addFlags_div, frame_div]

section HeapPages

variable {b : Nat} {live : Nat → Prop} {fs ms : List Nat} {s : Machine} {brk : Nat}

/-- The frame of a page of the heap. -/
theorem HeapPages.exists_frame (h : HeapPages b live fs s brk ms) {a : Nat} (ha : kernelHeapS ≤ a)
    (ha' : a < brk) :
  ∃ f i, ms[i]? = some f ∧ a / pageSize = kernelHeapS / pageSize + i
    ∧ lookup (words s.mem) b a = addFlags (frame f) heapFlags
  := by
  obtain ⟨i, hi⟩ : ∃ i, a / pageSize = kernelHeapS / pageSize + i := by
    use a / pageSize - kernelHeapS / pageSize
    have hle := Nat.div_le_div_right (c := pageSize) ha
    omega
  have hlt : i < ms.length := by
    have hbrk := h.brk_eq
    rw [pageSize] at hi hbrk
    rw [kernelHeapS] at ha hi hbrk
    omega
  refine ⟨ms[i], i, List.getElem?_eq_getElem hlt, hi, ?_⟩
  exact h.page (List.getElem?_eq_getElem hlt) hi

/-- The next page of the heap is mapped to a new frame; the pages below keep their frames and
their bytes. -/
theorem HeapPages.mapPage (h : HeapPages b live fs s brk ms) (hbrk : brk < 2 ^ 64) :
  (∃ s' f fs', Procmm.mapPage (frame b) heapFlags s 0 brk = some s'
      ∧ HeapPages b live fs' s' (brk + pageSize) (ms ++ [f]) ∧ fs.length ≤ fs'.length + 4
      ∧ ∀ a, kernelHeapS ≤ a → a < brk → byteAt s' b a = byteAt s b a)
    ∨ (fs.length < 4 ∧ Procmm.mapPage (frame b) heapFlags s 0 brk = none)
  := by
  have hlow : kernelHeapS ≤ brk := by
    rw [h.brk_eq]
    exact Nat.le_add_right _ _
  obtain ⟨hkernel, hhuge⟩ := heap_not_huge hlow hbrk
  obtain ⟨s', f, new, fs', rfl, hmap, hnew, hsound, hgrows, hf, hlookup⟩ | hnone :=
    h.sound.mapPage (Or.inl rfl) (show resolveP4 (frame b) 0 = frame b from rfl) hhuge heapFlags
  · left
    have halign : brk + pageSize ≤ 2 ^ 64 := by
      have heq := h.brk_eq
      rw [kernelHeapS, pageSize] at heq
      rw [pageSize]
      omega
    obtain ⟨hms, hfs, hdisj⟩ := List.nodup_append.mp h.nodup
    have hbelow : ∀ c, kernelHeapS ≤ c → c < brk →
        lookup (words s'.mem) b c = lookup (words s.mem) b c := by
      intro c hc hc'
      rw [hlookup b c (Or.inl rfl), setLookup, if_neg]
      rintro ⟨hpage, -⟩
      have hsame := (samePage_heap hlow hbrk hc (by omega)).mp hpage
      have heq := h.brk_eq
      rw [pageSize] at heq hsame
      rw [kernelHeapS] at heq
      omega
    have hfirst : ∀ c, kernelHeapS ≤ c → c < 2 ^ 64 → c / pageSize = brk / pageSize →
        lookup (words s'.mem) b c = addFlags (frame f) heapFlags := by
      intro c hc hc' hpage
      rw [hlookup b c (Or.inl rfl), setLookup, if_pos]
      exact ⟨(samePage_heap hlow hbrk hc hc').mpr hpage, Or.inl rfl⟩
    have htable : ∀ g ∈ ms ++ [f], ¬ IsTable b live s' g := by
      intro g hg hn
      obtain hg | hg := List.mem_append.mp hg
      · obtain hn | hn := hgrows.new hn
        · exact h.notTable g hg hn
        · exact hdisj g hg g (List.mem_append_left fs' hn) rfl
      · obtain rfl := List.mem_singleton.mp hg
        exact hf hn
    have hmapped : ∀ g, ¬ Mapped (words s.mem) live g → ¬ Mapped (words s'.mem) live g := by
      rintro g hg ⟨q, c, hq, hc, hne, rfl⟩
      apply hg
      rw [hlookup q c (Or.inr hq), setLookup, if_neg] at hne ⊢
      · exact ⟨q, c, hq, hc, hne, rfl⟩
      · rintro ⟨⟨hpath, -⟩, -⟩
        apply hc
        rw [(List.cons.inj hpath).1, hkernel]
      · rintro ⟨⟨hpath, -⟩, -⟩
        apply hc
        rw [(List.cons.inj hpath).1, hkernel]
    refine ⟨s', f, fs', hmap, ⟨hsound, ?_, halign, ?_, ?_, htable, ?_, ?_⟩, ?_, ?_⟩
    · rw [h.brk_eq, List.length_append, List.length_singleton, Nat.mul_succ, Nat.add_assoc]
    · intro i g a hg ha
      have heq := h.brk_eq
      have hi : i < (ms ++ [f]).length := (List.getElem?_eq_some_iff.mp hg).1
      rw [List.length_append, List.length_singleton] at hi
      by_cases hlast : i = ms.length
      · subst hlast
        rw [List.getElem?_concat_length, Option.some.injEq] at hg
        obtain rfl := hg
        apply hfirst
        · rw [pageSize] at ha
          rw [kernelHeapS] at ha ⊢
          omega
        · rw [pageSize] at ha heq halign
          rw [kernelHeapS] at ha heq
          omega
        · rw [heq, ha, Nat.add_mul_div_left _ _ (by decide)]
      · rw [List.getElem?_append_left (by omega)] at hg
        rw [hbelow, h.page hg ha]
        · rw [pageSize] at ha heq
          rw [kernelHeapS] at ha heq ⊢
          omega
        · rw [pageSize] at ha heq
          rw [kernelHeapS] at ha heq
          omega
    · have hsub : (ms ++ [f] ++ fs').Sublist (ms ++ (f :: new ++ fs')) := by
        rw [List.append_assoc]
        apply List.Sublist.append_left
        apply List.Sublist.append_right
        exact List.Sublist.cons_cons f (List.nil_sublist new)
      exact h.nodup.sublist hsub
    · intro g hg
      apply hmapped
      obtain hg | hg := List.mem_append.mp hg
      · exact h.notMapped g hg
      · obtain rfl := List.mem_singleton.mp hg
        exact (h.sound.unused g (by simp)).2.2
    · intro g hg
      obtain hg | hg := List.mem_append.mp hg
      · exact h.direct g hg
      · obtain rfl := List.mem_singleton.mp hg
        exact (h.sound.unused g (by simp)).1
    · simp only [List.length_append, List.length_cons]
      omega
    · intro a ha ha'
      obtain ⟨g, i, hg, -, hentry⟩ := h.exists_frame ha ha'
      have hsame := hbelow a ha ha'
      rw [byteAt, byteAt, place_congr hsame]
      apply bytes_of_words
      apply hgrows.words_eq
      rw [place_div, hentry, heapFlags_entry]
      exact htable g (List.mem_append_left _ (List.mem_of_getElem? hg))
  · exact Or.inr hnone

/-! ### The loop -/

/-- The loop of `ksbrk` does not return when `top` lies above the last page. -/
theorem brkPages_wraps {top fuel : Nat} (htop : 2 ^ 64 - pageSize < top) :
  ∀ {s : Machine} {brk : Nat}, brk < 2 ^ 64 → brk % pageSize = 0 →
    brkPages (frame b) top fuel s brk = none
  := by
  induction fuel with
  | zero => exact fun _ _ => rfl
  | succ fuel ih =>
      intro s brk hlt halign
      rw [pageSize] at htop halign
      have halign' : incptr brk pageSize % pageSize = 0 := by
        simp only [incptr, pageSize]
        omega
      have hlt' : incptr brk pageSize < 2 ^ 64 := Nat.mod_lt _ (by decide)
      rw [brkPages, if_pos (by omega)]
      cases Procmm.mapPage (frame b) heapFlags s 0 brk with
      | none => rfl
      | some s' => exact ih hlt' halign'

/-- The pages that the loop of `ksbrk` maps. -/
theorem HeapPages.brkPages {top fuel brk' : Nat} {s' : Machine} (h : HeapPages b live fs s brk ms)
    (htop : top ≤ 2 ^ 64 - pageSize)
    (hloop : Procmm.brkPages (frame b) top fuel s brk = some (s', brk')) :
  ∃ ms' fs', HeapPages b live fs' s' brk' (ms ++ ms') ∧ top ≤ brk' ∧ brk ≤ brk'
    ∧ (brk < top + pageSize → brk' < top + pageSize)
    ∧ ∀ a, kernelHeapS ≤ a → a < brk → byteAt s' b a = byteAt s b a
  := by
  induction fuel generalizing fs ms s brk with
  | zero => cases hloop
  | succ fuel ih =>
      rw [Procmm.brkPages] at hloop
      split_ifs at hloop with hlt
      · rw [pageSize] at htop
        obtain ⟨s₁, f, fs₁, hmap, hpages, -, hkept⟩ | ⟨-, hnone⟩ := h.mapPage (by omega)
        · have hnext : incptr brk pageSize = brk + pageSize := by
            apply incptr_of_lt
            rw [pageSize]
            omega
          rw [hmap] at hloop
          dsimp only at hloop
          rw [hnext] at hloop
          obtain ⟨ms', fs', hpages', htop', hle, hbound, hkept'⟩ := ih hpages hloop
          refine ⟨f :: ms', fs', ?_, htop', Nat.le_of_add_right_le hle, ?_, ?_⟩
          · rwa [List.append_assoc] at hpages'
          · intro _
            exact hbound (Nat.add_lt_add_right hlt pageSize)
          · intro a ha ha'
            rw [hkept' a ha (Nat.lt_add_right pageSize ha'), hkept a ha ha']
        · rw [hnone] at hloop
          cases hloop
      · obtain ⟨rfl, rfl⟩ := Prod.mk.inj (Option.some.inj hloop)
        refine ⟨[], fs, ?_, Nat.le_of_not_lt hlt, Nat.le_refl _, id, fun _ _ _ => rfl⟩
        rwa [List.append_nil]

/-- The loop of `ksbrk` returns when it finds enough frames. -/
theorem HeapPages.brkPages_returns {top fuel : Nat} (h : HeapPages b live fs s brk ms)
    (htop : top ≤ 2 ^ 64 - pageSize) (hfs : 4 * turns brk top ≤ fs.length)
    (hfuel : turns brk top < fuel) :
  Procmm.brkPages (frame b) top fuel s brk ≠ none
  := by
  induction fuel generalizing fs ms s brk with
  | zero => exact absurd hfuel (Nat.not_lt_zero _)
  | succ fuel ih =>
      rw [Procmm.brkPages]
      split_ifs with hlt
      · rw [turns_of_lt hlt] at hfs hfuel
        rw [pageSize] at htop
        obtain ⟨s₁, f, fs₁, hmap, hpages, hlen, -⟩ | ⟨hlen, -⟩ := h.mapPage (by omega)
        · have hnext : incptr brk pageSize = brk + pageSize := by
            apply incptr_of_lt
            rw [pageSize]
            omega
          rw [hmap]
          dsimp only
          rw [hnext]
          exact ih hpages (by omega) (by omega)
        · omega
      · exact Option.some_ne_none _

end HeapPages

/-! ### Runs of `ksbrk` -/

/-- The heap is empty. -/
def EmptyHeap (b : Nat) (live : Nat → Prop) (k : HeapEnd) : Prop :=
  k.heapMax = kernelHeapS ∧ k.brk = kernelHeapS
    ∧ ∃ fs, Sound b (fun _ => False) live fs k.machine

/-- A call of `ksbrk` that returns, with a size for which the end of the heap does not wrap
around. -/
def KsbrkStep (b : Nat) (k k' : HeapEnd) : Prop :=
  ∃ fuel size, k.heapMax + size < 2 ^ 64
    ∧ ∃ last, ksbrk (frame b) fuel k size = some (last, k')

/-- The heap is mapped up to `brk`, which lies less than a page above its end. -/
structure HeapEnd.Inv (b : Nat) (live : Nat → Prop) (fs ms : List Nat) (k : HeapEnd) : Prop where
  pages : HeapPages b live fs k.machine k.brk ms
  low : kernelHeapS ≤ k.heapMax
  heapMax_le : k.heapMax ≤ k.brk
  brk_lt : k.brk < k.heapMax + pageSize
  brk_lt_top : k.brk < 2 ^ 64

theorem HeapEnd.Inv.of_empty {b : Nat} {live : Nat → Prop} {fs : List Nat} {k : HeapEnd}
    (hmax : k.heapMax = kernelHeapS) (hbrk : k.brk = kernelHeapS)
    (hsound : Sound b (fun _ => False) live fs k.machine) :
  k.Inv b live fs []
  := by
  rw [← hmax] at hbrk
  refine ⟨⟨hsound, ?_, ?_, ?_, hsound.nodup, ?_, ?_, ?_⟩, Nat.le_of_eq hmax.symm,
    Nat.le_of_eq hbrk.symm, ?_, ?_⟩
  · rw [hbrk, hmax]
    rfl
  · rw [hbrk, hmax]
    decide
  · intro i f a hf
    cases hf
  · intro f hf
    cases hf
  · intro f hf
    cases hf
  · intro f hf
    cases hf
  · rw [hbrk]
    exact Nat.lt_add_of_pos_right (by decide)
  · rw [hbrk, hmax]
    decide

section Inv

variable {b fuel size last : Nat} {live : Nat → Prop} {fs ms : List Nat} {k k' : HeapEnd}

theorem HeapEnd.Inv.brk_aligned (h : k.Inv b live fs ms) :
  k.brk % pageSize = 0
  := by
  rw [h.pages.brk_eq, Nat.add_mul_mod_self_left]
  decide

/-- A call of `ksbrk` that returns has mapped the pages up to the new end of the heap, which does
not lie above the last page. -/
theorem HeapEnd.Inv.ksbrk_cases (h : k.Inv b live fs ms) (hsize : k.heapMax + size < 2 ^ 64)
    (hcall : Procmm.ksbrk (frame b) fuel k size = some (last, k')) :
  k.heapMax + size ≤ 2 ^ 64 - pageSize ∧ last = k.heapMax + size
    ∧ ∃ s brk, Procmm.brkPages (frame b) (k.heapMax + size) fuel k.machine k.brk = some (s, brk)
      ∧ k' = { machine := s, heapMax := k.heapMax + size, brk := brk }
  := by
  rw [Procmm.ksbrk, incptr_of_lt hsize] at hcall
  cases hloop : Procmm.brkPages (frame b) (k.heapMax + size) fuel k.machine k.brk with
  | none =>
      rw [hloop] at hcall
      cases hcall
  | some result =>
      obtain ⟨s, brk⟩ := result
      rw [hloop] at hcall
      obtain ⟨rfl, rfl⟩ := Prod.mk.inj (Option.some.inj hcall)
      refine ⟨?_, rfl, s, brk, rfl, rfl⟩
      by_contra htop
      rw [brkPages_wraps (Nat.lt_of_not_le htop) h.brk_lt_top h.brk_aligned] at hloop
      cases hloop

/-- A call of `ksbrk` that returns leaves the pages of the heap as they are, and maps others
behind them. -/
theorem HeapEnd.Inv.ksbrk (h : k.Inv b live fs ms) (hsize : k.heapMax + size < 2 ^ 64)
    (hcall : Procmm.ksbrk (frame b) fuel k size = some (last, k')) :
  ∃ ms' fs', k'.Inv b live fs' (ms ++ ms') ∧ last = k.heapMax + size
    ∧ k'.heapMax = k.heapMax + size ∧ k.brk ≤ k'.brk
    ∧ ∀ a, kernelHeapS ≤ a → a < k.brk → byteAt k'.machine b a = byteAt k.machine b a
  := by
  obtain ⟨htop, rfl, s', brk', hloop, rfl⟩ := h.ksbrk_cases hsize hcall
  have hlow := h.low
  have hbound := h.brk_lt
  have hle := h.heapMax_le
  obtain ⟨ms', fs', hpages, htop', hle', hlt, hkept⟩ := h.pages.brkPages htop hloop
  have hlt' := hlt (by omega)
  refine ⟨ms', fs', ⟨hpages, ?_, htop', hlt', ?_⟩, rfl, rfl, hle', hkept⟩
  · exact Nat.le_add_right_of_le hlow
  · rw [pageSize] at htop hlt'
    simp only
    omega

/-- A later state of the run has the pages of the heap as they are, and others behind them. -/
theorem HeapEnd.Inv.run (h : k.Inv b live fs ms)
    (hrun : Relation.ReflTransGen (KsbrkStep b) k k') :
  ∃ ms' fs', k'.Inv b live fs' (ms ++ ms') ∧ k.brk ≤ k'.brk
    ∧ ∀ a, kernelHeapS ≤ a → a < k.brk → byteAt k'.machine b a = byteAt k.machine b a
  := by
  induction hrun with
  | refl =>
      refine ⟨[], fs, ?_, Nat.le_refl _, fun _ _ _ => rfl⟩
      rwa [List.append_nil]
  | tail _ hstep ih =>
      obtain ⟨ms₁, fs₁, hinv, hle, hkept⟩ := ih
      obtain ⟨fuel, size, hsize, last, hcall⟩ := hstep
      obtain ⟨ms₂, fs₂, hinv', -, -, hle', hkept'⟩ := hinv.ksbrk hsize hcall
      refine ⟨ms₁ ++ ms₂, fs₂, ?_, Nat.le_trans hle hle', ?_⟩
      · rwa [List.append_assoc] at hinv'
      · intro a ha ha'
        rw [hkept' a ha (Nat.lt_of_lt_of_le ha' hle), hkept a ha ha']

/-- The invariant holds in every state of a run. -/
theorem HeapEnd.Inv.of_run (h : Reachable (EmptyHeap b live) (KsbrkStep b) k) :
  ∃ fs ms, k.Inv b live fs ms
  := by
  apply h.invariant
  · rintro k ⟨hmax, hbrk, fs, hsound⟩
    exact ⟨fs, [], .of_empty hmax hbrk hsound⟩
  · rintro k k' ⟨fs, ms, hinv⟩ ⟨fuel, size, hsize, last, hcall⟩
    obtain ⟨ms', fs', hinv', -⟩ := hinv.ksbrk hsize hcall
    exact ⟨fs', ms ++ ms', hinv'⟩

/-- The entry of a page of the heap, and what the processor finds there. -/
theorem HeapPages.translate {s : Machine} {brk a f i : Nat} (h : HeapPages b live fs s brk ms)
    (ha : kernelHeapS ≤ a) (ha' : a < brk) (hf : ms[i]? = some f)
    (hi : a / pageSize = kernelHeapS / pageSize + i) :
  vmmGetPage (frame b) s 0 a = addFlags (frame f) heapFlags
    ∧ translate (words s.mem) b a = some f
  := by
  have hentry := h.page hf hi
  have hlt := h.brk_le
  obtain ⟨-, hhuge⟩ := heap_not_huge ha (Nat.lt_of_lt_of_le ha' hlt)
  have hroot : Roots b live b := Or.inl rfl
  constructor
  · rw [h.sound.half.toKernelTables.vmmGetPage_eq hroot rfl hhuge, hentry]
  · have hpresent : isPresent (lookup (words s.mem) b a) = true := by
      rw [hentry]
      apply isPresent_addFlags
      decide
    rw [h.sound.half.toKernelTables.translate_eq hroot h.sound.present hhuge hpresent, hentry,
      frameOf_eq, heapFlags_entry]
    rw [heapFlags_entry]
    have hdirect := h.direct f (List.mem_of_getElem? hf)
    rw [frame, pageSize] at hdirect
    omega

end Inv

/-- A call of `ksbrk` returns when there are enough frames, and the end of the heap does not lie
above the last page. -/
theorem HeapEnd.Inv.ksbrk_returns {b size : Nat} {live : Nat → Prop} {fs ms : List Nat}
    {k : HeapEnd} (h : k.Inv b live fs ms) (htop : k.heapMax + size ≤ 2 ^ 64 - pageSize)
    (hlen : 4 * turns k.brk (k.heapMax + size) ≤ fs.length) :
  ∃ fuel, Procmm.ksbrk (frame b) fuel k size ≠ none
  := by
  use turns k.brk (k.heapMax + size) + 1
  have hreturns := h.pages.brkPages_returns htop hlen (Nat.lt_succ_self _)
  rw [pageSize] at htop
  rw [Procmm.ksbrk, incptr_of_lt (by omega)]
  obtain ⟨result, hresult⟩ := Option.ne_none_iff_exists'.mp hreturns
  rw [hresult]
  exact Option.some_ne_none _

/-! ### The memory of the heap -/

/-- The heap `g` shows the bytes of the machine at the mapped addresses of the heap. -/
structure Shows (b : Nat) (k : HeapEnd) (g : Heap.Globals) : Prop where
  heapMax : g.heapMax = k.heapMax
  brk : g.brk = k.brk
  mem : ∀ x, kernelHeapS ≤ x → x < k.brk → g.mem x = byteAt k.machine b x

/-- The loop of `ksbrk` on the memory of the heap, where it ends on the machine. -/
theorem heap_mapPages {b top fuel brk' : Nat} {s' : Machine} (fresh : Memory)
    (htop : top ≤ 2 ^ 64 - pageSize) :
  ∀ {s : Machine} {brk : Nat} (mem : Memory),
    Procmm.brkPages (frame b) top fuel s brk = some (s', brk') →
    ∃ mem', Heap.mapPages fresh top fuel mem brk = some (mem', brk') ∧ brk ≤ brk'
      ∧ ∀ x, mem' x = if brk ≤ x ∧ x < brk' then fresh x else mem x
  := by
  induction fuel with
  | zero =>
      intro s brk mem hloop
      cases hloop
  | succ fuel ih =>
      intro s brk mem hloop
      rw [Procmm.brkPages] at hloop
      rw [Heap.mapPages]
      split_ifs at hloop ⊢ with hlt
      · cases hmap : Procmm.mapPage (frame b) heapFlags s 0 brk with
        | none =>
            rw [hmap] at hloop
            cases hloop
        | some s₁ =>
            rw [hmap] at hloop
            obtain ⟨mem', hheap, hle, hmem⟩ := ih (Heap.mapPage fresh mem brk) hloop
            have hnext : incptr brk pageSize = brk + pageSize := by
              apply incptr_of_lt
              rw [pageSize] at htop ⊢
              omega
            rw [hnext] at hle hmem
            refine ⟨mem', hheap, Nat.le_of_add_right_le hle, ?_⟩
            intro x
            rw [hmem, Heap.mapPage]
            split_ifs with h₁ h₂ h₃ h₄ h₅
            · rfl
            · omega
            · rfl
            · omega
            · omega
            · rfl
      · obtain ⟨rfl, rfl⟩ := Prod.mk.inj (Option.some.inj hloop)
        refine ⟨mem, rfl, Nat.le_refl _, ?_⟩
        intro x
        rw [if_neg (by omega)]

/-- `ksbrk` on the machine is `ksbrk` on the memory of the heap, where the new pages show the
bytes of their frames. -/
theorem HeapEnd.Inv.refines {b fuel size last : Nat} {live : Nat → Prop} {fs ms : List Nat}
    {k k' : HeapEnd} {g : Heap.Globals} (h : k.Inv b live fs ms)
    (hsize : k.heapMax + size < 2 ^ 64) (hshows : Shows b k g)
    (hcall : Procmm.ksbrk (frame b) fuel k size = some (last, k')) :
  ∃ g', Heap.ksbrk (byteAt k'.machine b) fuel g size = some (last, g')
    ∧ Shows b k' g' ∧ g'.heap = g.heap
  := by
  obtain ⟨-, -, -, -, -, -, hkept⟩ := h.ksbrk hsize hcall
  obtain ⟨htop, rfl, s', brk', hloop, rfl⟩ := h.ksbrk_cases hsize hcall
  obtain ⟨mem', hheap, hle, hmem⟩ := heap_mapPages (byteAt s' b) htop g.mem hloop
  refine ⟨{ g with mem := mem', brk := brk', heapMax := k.heapMax + size }, ?_, ⟨rfl, rfl, ?_⟩, rfl⟩
  · rw [Heap.ksbrk, hshows.heapMax, hshows.brk, incptr_of_lt hsize, hheap]
  · intro x hx hx'
    simp only at hkept hx' ⊢
    rw [hmem]
    split_ifs with hnew
    · rfl
    · rw [hshows.mem x hx (by omega), hkept x hx (by omega)]

/-- In every state of a run of `ksbrk` the heap is mapped up to a page boundary that lies less
than a page above its end.  Every address below it has a frame, which belongs to no other page
of the heap, to no page of a user, to no page table and not to the free stack; and it keeps it
and its bytes in all later states.  So every byte of every chunk has memory.  And `ksbrk` returns
when there are enough frames, and the end of the heap does not lie above the last page. -/
theorem heapPages_of_run {b : Nat} {live : Nat → Prop} {k : HeapEnd}
    (h : Reachable (EmptyHeap b live) (KsbrkStep b) k) :
  (k.brk - kernelHeapS) % pageSize = 0 ∧ k.heapMax ≤ k.brk ∧ k.brk < k.heapMax + pageSize
    ∧ (∃ fs, Stacked fs k.machine
        ∧ (∀ a, kernelHeapS ≤ a → a < k.brk →
            ∃ f, translate (words k.machine.mem) b a = some f
              ∧ vmmGetPage (frame b) k.machine 0 a = addFlags (frame f) heapFlags
              ∧ f ∉ fs ∧ ¬ IsTable b live k.machine f ∧ ¬ Mapped (words k.machine.mem) live f)
        ∧ ∀ size, k.heapMax + size ≤ 2 ^ 64 - pageSize →
            4 * turns k.brk (k.heapMax + size) ≤ fs.length →
            ∃ fuel, ksbrk (frame b) fuel k size ≠ none)
    ∧ (∀ a c, kernelHeapS ≤ a → a < k.brk → kernelHeapS ≤ c → c < k.brk →
        translate (words k.machine.mem) b a = translate (words k.machine.mem) b c →
        a / pageSize = c / pageSize)
    ∧ (∀ k', Relation.ReflTransGen (KsbrkStep b) k k' → ∀ a, kernelHeapS ≤ a → a < k.brk →
        translate (words k'.machine.mem) b a = translate (words k.machine.mem) b a
          ∧ vmmGetPage (frame b) k'.machine 0 a = vmmGetPage (frame b) k.machine 0 a
          ∧ byteAt k'.machine b a = byteAt k.machine b a)
    ∧ ∀ cs, Heap.Tiles kernelHeapS cs k.heapMax → ∀ c ∈ cs, ∀ x, c.addr ≤ x → x < c.stop →
        translate (words k.machine.mem) b x ≠ none
  := by
  obtain ⟨fs, ms, hinv⟩ := HeapEnd.Inv.of_run h
  have hpages := hinv.pages
  have hnodup := List.nodup_append.mp hpages.nodup
  have hframe : ∀ a, kernelHeapS ≤ a → a < k.brk → ∃ f i, ms[i]? = some f
      ∧ a / pageSize = kernelHeapS / pageSize + i
      ∧ vmmGetPage (frame b) k.machine 0 a = addFlags (frame f) heapFlags
      ∧ translate (words k.machine.mem) b a = some f := by
    intro a ha ha'
    obtain ⟨f, i, hf, hi, -⟩ := hpages.exists_frame ha ha'
    obtain ⟨hget, htranslate⟩ := hpages.translate ha ha' hf hi
    exact ⟨f, i, hf, hi, hget, htranslate⟩
  refine ⟨?_, hinv.heapMax_le, hinv.brk_lt, ⟨fs, hpages.sound.stack, ?_, ?_⟩, ?_, ?_, ?_⟩
  · rw [hpages.brk_eq, Nat.add_sub_cancel_left, Nat.mul_mod_right]
  · intro a ha ha'
    obtain ⟨f, i, hf, -, hget, htranslate⟩ := hframe a ha ha'
    have hmem := List.mem_of_getElem? hf
    refine ⟨f, htranslate, hget, ?_, hpages.notTable f hmem, hpages.notMapped f hmem⟩
    intro hfree
    exact hnodup.2.2 f hmem f hfree rfl
  · exact fun size => hinv.ksbrk_returns
  · intro a c ha ha' hc hc' heq
    obtain ⟨f, i, hf, hi, -, hf'⟩ := hframe a ha ha'
    obtain ⟨g, j, hg, hj, -, hg'⟩ := hframe c hc hc'
    rw [hf', hg', Option.some.injEq] at heq
    subst heq
    obtain ⟨hilt, -⟩ := List.getElem?_eq_some_iff.mp hf
    obtain rfl := (List.getElem?_inj hilt hnodup.1).mp (hf.trans hg.symm)
    rw [hi, hj]
  · intro k' hrun a ha ha'
    obtain ⟨f, i, hf, hi, hget, htranslate⟩ := hframe a ha ha'
    obtain ⟨ms', fs', hinv', hle, hkept⟩ := hinv.run hrun
    obtain ⟨hilt, -⟩ := List.getElem?_eq_some_iff.mp hf
    have hf' : (ms ++ ms')[i]? = some f := by
      rw [List.getElem?_append_left hilt, hf]
    obtain ⟨hget', htranslate'⟩ :=
      hinv'.pages.translate ha (Nat.lt_of_lt_of_le ha' hle) hf' hi
    rw [hget, hget', htranslate, htranslate']
    exact ⟨rfl, rfl, hkept a ha ha'⟩
  · intro cs hcs c hc x hx hx'
    obtain ⟨hlow, hstop⟩ := hcs.mem_le c hc
    have hle := hinv.heapMax_le
    obtain ⟨f, i, -, -, -, htranslate⟩ := hframe x (by omega) (by omega)
    rw [htranslate]
    exact Option.some_ne_none f
/-- The heap after one call of `ksbrk(100)` on a machine with four free frames. -/
theorem heapPages_of_run_one_call :
  ∃ live k, Reachable (EmptyHeap 16 live) (KsbrkStep 16) k ∧ k.heapMax = kernelHeapS + 100
    ∧ k.heapMax ≤ k.brk ∧ k.brk < k.heapMax + pageSize
  := by
  have hspare : Spare [32, 33, 34, 35] := by
    rw [Spare]
    decide
  have hready := @ready_start (fun _ _ => 0) _ (fun _ _ => by decide) hspare
  obtain ⟨live, hlive⟩ : ∃ live, live = (startKernel (fun _ _ => 0) [32, 33, 34, 35]).Root :=
    ⟨_, rfl⟩
  obtain ⟨s, hs⟩ : ∃ s, s = startMachine (fun _ _ => 0) [32, 33, 34, 35] := ⟨_, rfl⟩
  have hsound : Sound 16 (fun _ => False) live [32, 33, 34, 35] s := by
    rw [hlive, hs]
    exact hready.sound
  have hinv := HeapEnd.Inv.of_empty (k := ⟨s, kernelHeapS, kernelHeapS⟩) rfl rfl hsound
  have htop : kernelHeapS + 100 ≤ 2 ^ 64 - pageSize := by decide
  have hlen : 4 * turns kernelHeapS (kernelHeapS + 100) ≤ [32, 33, 34, 35].length := by decide
  have hsize : kernelHeapS + 100 < 2 ^ 64 := by decide
  obtain ⟨fuel, hreturns⟩ := hinv.ksbrk_returns htop hlen
  obtain ⟨⟨last, k⟩, hcall⟩ := Option.ne_none_iff_exists'.mp hreturns
  obtain ⟨-, -, -, -, hmax, -⟩ := hinv.ksbrk hsize hcall
  have hk : Reachable (EmptyHeap 16 live) (KsbrkStep 16) k :=
    .next (.start ⟨rfl, rfl, _, hsound⟩) ⟨fuel, 100, hsize, last, hcall⟩
  obtain ⟨-, hle, hlt, -⟩ := heapPages_of_run hk
  exact ⟨live, k, hk, hmax, hle, hlt⟩

end Procmm
