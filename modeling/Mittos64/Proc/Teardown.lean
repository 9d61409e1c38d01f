import Mittos64.Mem.FreeReads
import Mittos64.Proc.Setup

/-!
# Taking an address space down

`procmm_free_map` walks over the pages twice.  `procmm_unmap` goes through every area in page
steps, frees the frame it finds and clears the entry; `vmm_free_P4` then goes through the tables
and frees what is left: pages that no step has met, the tables and the P4.  When every step meets a
page that is mapped, and no two steps the same page, both together free exactly the frames of the
address space, each of them once.  A step that meets no page frees the frame 0.
-/

open DList

namespace Procmm

open Mem
open Trie (Forest Node)

/-- The kernel half reaches the frames of the user pages. -/
def LowPages (T : Words) (live : Nat → Prop) : Prop :=
  ∀ {f}, Mapped T live f → frame f < 2 ^ 39

/-! ### Clearing the entry of a page -/

/-- `vmm_find_page` follows the tables that are there. -/
theorem findTable_walk {touch : Bool} {s : Machine} {t u : Nat} {p : List (Fin 512)}
    (h : walk (words s.mem) t p = some u) :
  findTable touch s (frame t) p = some (p2v (frame u), s)
  := by
  induction p generalizing t with
  | nil =>
      obtain rfl := Option.some.inj h
      rfl
  | cons i p ih =>
      rw [walk_cons, Option.bind_eq_some_iff] at h
      obtain ⟨v, hchild, hwalk⟩ := h
      rw [child] at hchild
      split_ifs at hchild with hentry
      obtain rfl := Option.some.inj hchild
      have hne : words s.mem t i ≠ 0 := fun hzero => hentry (Or.inl hzero)
      rw [findTable, nextTable_of_ne hne]
      simp only [if_neg hne]
      rw [stripFlags_eq]
      apply ih hwalk

/-- The entry of a page that is mapped lies in a table. -/
theorem walk_of_lookup {T : Words} {r a : Nat} (h : lookup T r a ≠ 0) :
  ∃ t, walk T r (tablePath a) = some t ∧ lookup T r a = T t (p1Offset a)
  := by
  rw [lookup] at h ⊢
  cases ht : walk T r (tablePath a) with
  | none =>
      rw [ht] at h
      exact absurd rfl h
  | some t => exact ⟨t, rfl, rfl⟩

/-- `vmm_set_page` in a table that is there. -/
theorem vmmSetPage_walk {b r a t : Nat} (phys flags : Nat) {s : Machine}
    (hroot : resolveP4 (frame b) (frame r) = frame r)
    (ht : walk (words s.mem) r (tablePath a) = some t) (hnull : p2v (frame t) ≠ 0)
    (hlt : frame t < 2 ^ 64) :
  ∃ v, vmmSetPage (frame b) s (frame r) a phys flags
    = some (v, setEntry s (frame t) (p1Offset a) (addFlags phys flags))
  := by
  have hset : vmmSetPage (frame b) s (frame r) a phys flags
      = some (entry (setEntry s (frame t) (p1Offset a) (addFlags phys flags)).mem (frame t)
        (p1Offset a), setEntry s (frame t) (p1Offset a) (addFlags phys flags)) := by
    rw [vmmSetPage, vmmFindPage, hroot, tablePath_stripFlags, findTable_walk ht]
    simp only [if_neg hnull, v2p_p2v hlt]
  exact ⟨_, hset⟩

/-- The machine `s'` is the machine `s` after the frames `L` of the pages `page` of the address space
`r` have been freed and the entries of these pages have been cleared. -/
structure Unmaps (b : Nat) (live : Nat → Prop) (r : Nat) (page : Nat → Prop) (L : List Nat)
    (s s' : Machine) : Prop where
  history : s'.taken = s.taken ∧ s'.freed = L ++ s.freed
  walks : ∀ {q p}, Tables (Roots b live) q p → walk (words s'.mem) q p = walk (words s.mem) q p
  cleared : ∀ {c}, page c → lookup (words s'.mem) r c = 0
  kept : ∀ {q c}, Roots b live q → ¬ (q = r ∧ page c) →
    lookup (words s'.mem) q c = lookup (words s.mem) q c
  frames : ∀ {f}, f ∈ L ↔ ∃ c, page c ∧ lookup (words s.mem) r c / pageSize = f
  words_eq : ∀ {n}, ¬ IsTable b live s n → n ∉ L → words s'.mem n = words s.mem n

section Unmaps

variable {b r : Nat} {live : Nat → Prop} {page page' : Nat → Prop} {L L' : List Nat}
  {s s' s'' : Machine}

theorem Unmaps.isTable (h : Unmaps b live r page L s s') (n : Nat) :
  IsTable b live s' n ↔ IsTable b live s n
  := by
  constructor
  · rintro ⟨q, p, hp, hn⟩
    exact ⟨q, p, hp, (h.walks hp).symm.trans hn⟩
  · rintro ⟨q, p, hp, hn⟩
    exact ⟨q, p, hp, (h.walks hp).trans hn⟩

/-- A page that is still mapped was mapped to the same frame before. -/
theorem Unmaps.lookup_of_ne (h : Unmaps b live r page L s s') {q c : Nat} (hq : Roots b live q)
    (hne : lookup (words s'.mem) q c ≠ 0) :
  lookup (words s'.mem) q c = lookup (words s.mem) q c ∧ ¬ (q = r ∧ page c)
  := by
  have hnot : ¬ (q = r ∧ page c) := by
    rintro ⟨rfl, hc⟩
    exact hne (h.cleared hc)
  exact ⟨h.kept hq hnot, hnot⟩

theorem Unmaps.mapped (h : Unmaps b live r page L s s') {f : Nat}
    (hf : Mapped (words s'.mem) live f) :
  Mapped (words s.mem) live f
  := by
  obtain ⟨q, c, hq, hc, hne, rfl⟩ := hf
  obtain ⟨heq, -⟩ := h.lookup_of_ne (Or.inr hq) hne
  rw [heq] at hne ⊢
  exact ⟨q, c, hq, hc, hne, rfl⟩

theorem Unmaps.lowPages (h : Unmaps b live r page L s s') (hlow : LowPages (words s.mem) live) :
  LowPages (words s'.mem) live
  := fun hf => hlow (h.mapped hf)

theorem Unmaps.refl (hpage : ∀ c, ¬ page c) :
  Unmaps b live r page [] s s
  where
  history := ⟨rfl, rfl⟩
  walks _ := rfl
  cleared hc := absurd hc (hpage _)
  kept _ _ := rfl
  frames := by
    intro f
    constructor
    · intro hf
      cases hf
    · rintro ⟨c, hc, -⟩
      exact absurd hc (hpage c)
  words_eq _ _ := rfl

/-- Some pages and then others. -/
theorem Unmaps.trans (h : Unmaps b live r page L s s') (h' : Unmaps b live r page' L' s' s'')
    (hr : Roots b live r) (hdisj : ∀ c, page c → ¬ page' c) :
  Unmaps b live r (fun c => page c ∨ page' c) (L' ++ L) s s''
  where
  history := by
    obtain ⟨htaken, hfreed⟩ := h.history
    obtain ⟨htaken', hfreed'⟩ := h'.history
    rw [htaken', htaken, hfreed', hfreed, List.append_assoc]
    exact ⟨rfl, rfl⟩
  walks hp := (h'.walks hp).trans (h.walks hp)
  cleared := by
    rintro c (hc | hc)
    · rw [h'.kept hr (fun hand => hdisj c hc hand.2), h.cleared hc]
    · exact h'.cleared hc
  kept := by
    intro q c hq hnot
    rw [h'.kept hq (fun hand => hnot ⟨hand.1, Or.inr hand.2⟩),
      h.kept hq (fun hand => hnot ⟨hand.1, Or.inl hand.2⟩)]
  frames := by
    intro f
    have hlater : f ∈ L' ↔ ∃ c, page' c ∧ lookup (words s.mem) r c / pageSize = f := by
      rw [h'.frames]
      apply exists_congr
      intro c
      apply and_congr_right
      intro hc
      rw [h.kept hr (fun hand => hdisj c hand.2 hc)]
    rw [List.mem_append, h.frames, hlater]
    constructor
    · rintro (⟨c, hc, hf⟩ | ⟨c, hc, hf⟩)
      · exact ⟨c, Or.inr hc, hf⟩
      · exact ⟨c, Or.inl hc, hf⟩
    · rintro ⟨c, hc | hc, hf⟩
      · exact Or.inr ⟨c, hc, hf⟩
      · exact Or.inl ⟨c, hc, hf⟩
  words_eq := by
    intro n hn hnot
    rw [List.mem_append, not_or] at hnot
    rw [h'.words_eq (mt (h.isTable n).mp hn) hnot.1, h.words_eq hn hnot.2]

/-- The same pages. -/
theorem Unmaps.congr (h : Unmaps b live r page L s s') (hpage : ∀ c, page' c ↔ page c) :
  Unmaps b live r page' L s s'
  := by
  obtain rfl : page' = page := by
    funext c
    apply propext (hpage c)
  exact h

end Unmaps

/-! ### Unmapping pages -/

section Unmap

variable {b r a : Nat} {own live : Nat → Prop} {fs : List Nat} {s : Machine}

/-- The frame of a page that is mapped goes back to the free stack, and only its own words
change. -/
theorem Sound.pmmFree_mapped {v : Nat} (h : Sound b own live fs s)
    (hlow : LowPages (words s.mem) live)
    (hmapped : Mapped (words s.mem) live (v / pageSize)) (hlt : v < 2 ^ 64) :
  Stacked (v / pageSize :: fs) (pmmFree s v)
    ∧ ∀ n, n ≠ v / pageSize → words (pmmFree s v).mem n = words s.mem n
  := by
  constructor
  · apply h.stack.free hlt
    · rw [stripFlags_eq]
      exact (p2v_ne_zero (hlow hmapped)).1
    · exact fun hmem => (h.unused _ hmem).2.2 hmapped
  · intro n hn
    funext j
    rw [words_pmmFree hlt h.stack.2.lt, setWord_of_ne _ _ (Or.inl hn)]

/-- After a page has been unmapped, its frame is not used. -/
theorem Sound.unmapped {s' : Machine} {f : Nat} (h : Sound b own live fs s)
    (hlow : LowPages (words s.mem) live) (hr : own r) (ha : p4Offset a ≠ 511)
    (hne : lookup (words s.mem) r a ≠ 0) (hf : f = lookup (words s.mem) r a / pageSize)
    (hunmaps : Unmaps b live r (SamePage a) [f] s s') (hhalf : KernelHalf b (words s'.mem) live)
    (hpresent : Present b (words s'.mem) live) (hstack : Stacked (f :: fs) s') :
  Sound b own live (f :: fs) s'
  := by
  have hmapped : Mapped (words s.mem) live f := ⟨r, a, h.owned hr, ha, hne, hf⟩
  have hnode : ∀ n, IsTable b live s' n ↔ IsTable b live s n := hunmaps.isTable
  refine ⟨hhalf, hpresent, hstack, ?_, ?_, ?_, h.nonzero, h.owned⟩
  · exact List.nodup_cons.mpr ⟨fun hmem => (h.unused f hmem).2.2 hmapped, h.nodup⟩
  · intro g hg
    obtain rfl | hg := List.mem_cons.mp hg
    · -- the frame was mapped at this page only
      refine ⟨hlow hmapped, mt (hnode g).mp (h.half.mapped hmapped), ?_⟩
      rintro ⟨q, c, hq, hc, hnec, hgc⟩
      obtain ⟨heq, hnot⟩ := hunmaps.lookup_of_ne (Or.inr hq) hnec
      rw [heq] at hnec hgc
      obtain ⟨rfl, hsame⟩ := h.distinct hr hq ha hc hne hnec (hf.symm.trans hgc)
      exact hnot ⟨rfl, hsame⟩
    · obtain ⟨hlt', htable, hmap⟩ := h.unused g hg
      exact ⟨hlt', mt (hnode g).mp htable, fun hm => hmap (hunmaps.mapped hm)⟩
  · intro q c q' c' hq hq' hc hc' hnec hnec' heq
    obtain ⟨hsame, -⟩ := hunmaps.lookup_of_ne (Or.inr (h.owned hq)) hnec
    obtain ⟨hsame', -⟩ := hunmaps.lookup_of_ne (Or.inr hq') hnec'
    rw [hsame] at hnec heq
    rw [hsame'] at hnec' heq
    exact h.distinct hq hq' hc hc' hnec hnec' heq

/-- A turn of `procmm_unmap` at a page that is mapped. -/
theorem Sound.unmapPage (h : Sound b own live fs s) (hlow : LowPages (words s.mem) live)
    (hr : own r) (ha : p4Offset a ≠ 511) (hne : lookup (words s.mem) r a ≠ 0) :
  ∃ v s', vmmSetPage (frame b) (pmmFree s (vmmGetPage (frame b) s (frame r) a)) (frame r) a 0 0
      = some (v, s')
    ∧ Sound b own live (lookup (words s.mem) r a / pageSize :: fs) s'
    ∧ Unmaps b live r (SamePage a) [lookup (words s.mem) r a / pageSize] s s'
  := by
  have hlive := h.owned hr
  have hrne : r ≠ 0 := by
    rintro rfl
    exact h.nonzero hlive
  have hroot := resolveP4_frame (b := b) hrne
  have hget : vmmGetPage (frame b) s (frame r) a = lookup (words s.mem) r a := by
    apply h.half.vmmGetPage_eq (Or.inr hlive) hroot
    rintro ⟨hkernel, -⟩
    exact ha hkernel
  obtain ⟨t, ht, hentry⟩ := walk_of_lookup hne
  have hlt : lookup (words s.mem) r a < 2 ^ 64 := by
    rw [hentry]
    apply words_lt
  have hmapped : Mapped (words s.mem) live (lookup (words s.mem) r a / pageSize) :=
    ⟨r, a, hlive, ha, hne, rfl⟩
  obtain ⟨hstack₁, hother⟩ := h.pmmFree_mapped hlow hmapped hlt
  obtain ⟨htaken₁, hfreed₁⟩ := pmmFree_history s (lookup (words s.mem) r a)
  obtain ⟨f, hf⟩ : ∃ f, f = lookup (words s.mem) r a / pageSize := ⟨_, rfl⟩
  obtain ⟨s₁, hs₁⟩ : ∃ s₁, s₁ = pmmFree s (lookup (words s.mem) r a) := ⟨_, rfl⟩
  rw [← hf] at hmapped
  rw [← hs₁, ← hf] at hstack₁ hother hfreed₁
  rw [← hs₁] at htaken₁
  rw [hget, ← hf, ← hs₁]
  have hftable : ¬ IsTable b live s f := h.half.mapped hmapped
  -- the tables are kept by `pmm_free`
  have hcongr : ∀ n, IsTable b live s n → words s₁.mem n = words s.mem n := by
    intro n hn
    apply hother
    rintro rfl
    exact hftable hn
  have hhalf := h.half.congr hcongr
  have hroots : Roots b live r := Or.inr hlive
  have hdom : Tables (Roots b live) r (tablePath a) := ⟨hroots, Nat.le_refl 3⟩
  have ht₁ : walk (words s₁.mem) r (tablePath a) = some t :=
    (h.half.walk_congr hcongr hdom).trans ht
  have htp := p2v_ne_zero (h.half.direct hdom ht)
  obtain ⟨v, hset⟩ := vmmSetPage_walk 0 0 hroot ht₁ htp.1 htp.2
  have hvalue : addFlags 0 0 = 0 := rfl
  rw [hvalue] at hset
  obtain ⟨s₂, hs₂⟩ : ∃ s₂, s₂ = setEntry s₁ (frame t) (p1Offset a) 0 := ⟨_, rfl⟩
  rw [← hs₂] at hset
  have hwords : words s₂.mem = setWord (words s₁.mem) t (p1Offset a) 0 := by
    rw [hs₂]
    apply words_setEntry _ _ _ (by decide)
  have hgrown : Grown (Tables (Roots b live)) UnderKernel r (tablePath a) (words s₁.mem)
      (words s₁.mem) [] := .refl hhalf.forest
  have hlookup : ∀ {q}, Roots b live q → ∀ c,
      lookup (words s₂.mem) q c = setLookup (words s.mem) r a 0 q c := by
    intro q hq c
    rw [hwords, hhalf.lookup_setWord hroots hgrown ht₁ 0 hq c, setLookup, setLookup,
      h.half.lookup_congr hcongr hq]
  have hunmaps : Unmaps b live r (SamePage a) [f] s s₂ := by
    constructor
    · have htaken : s₂.taken = s₁.taken ∧ s₂.freed = s₁.freed := by
        rw [hs₂]
        exact ⟨rfl, rfl⟩
      rw [htaken.1, htaken.2, htaken₁, hfreed₁]
      exact ⟨rfl, rfl⟩
    · intro q p hp
      rw [hwords, walk_setWord hhalf.forest hdom (fun _ _ hs => hs.2) ht₁ hp,
        h.half.walk_congr hcongr hp]
    · intro c hc
      rw [hlookup hroots, setLookup, if_pos ⟨hc, Or.inl rfl⟩]
    · intro q c hq hnot
      rw [hlookup hq, setLookup, if_neg]
      rintro ⟨hc, rfl | hkernel⟩
      · exact hnot ⟨rfl, hc⟩
      · exact ha hkernel
    · intro g
      rw [List.mem_singleton]
      constructor
      · rintro rfl
        exact ⟨a, ⟨rfl, rfl⟩, hf.symm⟩
      · rintro ⟨c, ⟨hpath, hoffset⟩, hg⟩
        rw [← hg, hf, lookup, lookup, hpath, hoffset]
    · intro n hn hnot
      rw [List.mem_singleton] at hnot
      funext j
      rw [hwords, setWord_of_ne, hother n hnot]
      left
      rintro rfl
      exact hn ⟨r, _, hdom, ht⟩
  refine ⟨v, s₂, hset, h.unmapped hlow hr ha hne hf hunmaps ?_ ?_ ?_, hunmaps⟩
  · rw [hwords]
    apply hhalf.setWord hroots hgrown ht₁
    · intro g hg
      cases hg
    · intro _ _ hzero
      exact absurd rfl hzero
  · rw [hwords]
    exact present_setWord hroots hgrown ht₁ 0 (h.half.present_congr hcongr h.present)
  · rw [hs₂]
    apply stacked_source.setEntry hstack₁ _ (by decide)
    intro hmem
    obtain rfl | hmem := List.mem_cons.mp hmem
    · exact hftable ⟨r, _, hdom, ht⟩
    · exact (h.unused t hmem).2.1 ⟨r, _, hdom, ht⟩

/-- A recursion over the numbers, at one of them. -/
theorem brecOn_apply {α : Type} (F : (n : Nat) → Nat.below (motive := fun _ => α) n → α) (n : Nat) :
  Nat.brecOn (motive := fun _ => α) n F = F n (Nat.brecOn.go n F).2
  := Nat.brecOn.eq n F

section Equations

variable {bootP4 fuel v P4 p stop : Nat} {s s' : Machine}

/-- The body of the loop of `procmm_unmap` at a page. -/
theorem unmapPages_body
    (below : Nat.below (motive := fun _ => Machine → Nat → Nat → Nat → Option Machine) (fuel + 1))
    (hp : p < stop)
    (hset : vmmSetPage bootP4 (pmmFree s (vmmGetPage bootP4 s P4 p)) P4 p 0 0 = some (v, s')) :
  unmapPages._f bootP4 (fuel + 1) below s P4 p stop = below.1 s' P4 (incptr p pageSize) stop
  := by
  delta unmapPages._f
  simp only [hp, ↓reduceIte, hset]

/-- The body of the loop of `procmm_unmap` at the end. -/
theorem unmapPages_body_end
    (below : Nat.below (motive := fun _ => Machine → Nat → Nat → Nat → Option Machine) (fuel + 1))
    (hp : ¬ p < stop) :
  unmapPages._f bootP4 (fuel + 1) below s P4 p stop = some s
  := by
  delta unmapPages._f
  simp only [hp, ↓reduceIte]

/-- A turn of the loop of `procmm_unmap`.  Unfolding the loop would evaluate `vmm_set_page` on the
memory that `pmm_free` leaves. -/
theorem unmapPages_of_lt (hp : p < stop)
    (hset : vmmSetPage bootP4 (pmmFree s (vmmGetPage bootP4 s P4 p)) P4 p 0 0 = some (v, s')) :
  unmapPages bootP4 (fuel + 1) s P4 p stop
    = unmapPages bootP4 fuel s' P4 (incptr p pageSize) stop
  := by
  delta unmapPages
  have hrec := brecOn_apply (unmapPages._f bootP4) (fuel + 1)
  refine (congrFun (congrFun (congrFun (congrFun hrec s) P4) p) stop).trans ?_
  refine (unmapPages_body (Nat.brecOn.go (fuel + 1) (unmapPages._f bootP4)).2 hp hset).trans ?_
  with_reducible_and_instances rfl

/-- The body of the loop of `procmm_unmap` when there is no frame for a table. -/
theorem unmapPages_body_none
    (below : Nat.below (motive := fun _ => Machine → Nat → Nat → Nat → Option Machine) (fuel + 1))
    (hp : p < stop)
    (hset : vmmSetPage bootP4 (pmmFree s (vmmGetPage bootP4 s P4 p)) P4 p 0 0 = none) :
  unmapPages._f bootP4 (fuel + 1) below s P4 p stop = none
  := by
  delta unmapPages._f
  simp only [hp, ↓reduceIte, hset]

/-- The loop of `procmm_unmap` stops when there is no frame for a table. -/
theorem unmapPages_of_none (hp : p < stop)
    (hset : vmmSetPage bootP4 (pmmFree s (vmmGetPage bootP4 s P4 p)) P4 p 0 0 = none) :
  unmapPages bootP4 (fuel + 1) s P4 p stop = none
  := by
  delta unmapPages
  have hrec := brecOn_apply (unmapPages._f bootP4) (fuel + 1)
  refine (congrFun (congrFun (congrFun (congrFun hrec s) P4) p) stop).trans ?_
  apply unmapPages_body_none _ hp hset

/-- The loop of `procmm_unmap` ends. -/
theorem unmapPages_of_le (hp : ¬ p < stop) :
  unmapPages bootP4 (fuel + 1) s P4 p stop = some s
  := by
  delta unmapPages
  have hrec := brecOn_apply (unmapPages._f bootP4) (fuel + 1)
  refine (congrFun (congrFun (congrFun (congrFun hrec s) P4) p) stop).trans ?_
  apply unmapPages_body_end _ hp

end Equations

/-- The pages of a loop are different ones. -/
theorem SamePage.not_stepped {p stop c : Nat} (h : SamePage p c) (hstop : stop ≤ userspaceTop) :
  ¬ Stepped (p + pageSize) stop c
  := by
  rintro ⟨i, hi, hpage⟩
  rw [lt_turns_iff] at hi
  rw [samePage_iff_mod] at h hpage
  rw [userspaceTop] at hstop
  rw [pageSize] at h hi hpage
  omega

/-- The loop of `procmm_unmap`, when all of its pages are mapped. -/
theorem Sound.unmapPages {p stop fuel : Nat} (h : Sound b own live fs s)
    (hlow : LowPages (words s.mem) live) (hr : own r) (hstop : stop ≤ userspaceTop)
    (hmapped : ∀ c, Stepped p stop c → lookup (words s.mem) r c ≠ 0) (hfuel : turns p stop < fuel) :
  ∃ L s', unmapPages (frame b) fuel s (frame r) p stop = some s'
    ∧ Sound b own live (L ++ fs) s' ∧ Unmaps b live r (Stepped p stop) L s s'
  := by
  induction fuel generalizing p fs s with
  | zero => exact absurd hfuel (Nat.not_lt_zero _)
  | succ fuel ih =>
      by_cases hp : p < stop
      · have hturns := turns_of_lt hp
        have hroots : Roots b live r := Or.inr (h.owned hr)
        have hinc : incptr p pageSize = p + pageSize := by
          apply incptr_of_lt
          rw [userspaceTop] at hstop
          rw [pageSize]
          omega
        have hself : Stepped p stop p := (stepped_of_lt hp).mpr (Or.inl ⟨rfl, rfl⟩)
        obtain ⟨v, s₁, hset, hsound, hfirst⟩ :=
          h.unmapPage hlow hr (hself.user hstop) (hmapped p hself)
        have hrest : ∀ c, Stepped (p + pageSize) stop c → lookup (words s₁.mem) r c ≠ 0 := by
          intro c hc
          rw [hfirst.kept hroots (fun hand => hand.2.not_stepped hstop hc)]
          exact hmapped c ((stepped_of_lt hp).mpr (Or.inr hc))
        obtain ⟨L, s', hloop, hsound', hlast⟩ :=
          ih hsound (hfirst.lowPages hlow) hrest (by omega)
        refine ⟨L ++ [lookup (words s.mem) r p / pageSize], s', ?_, ?_, ?_⟩
        · rw [unmapPages_of_lt hp hset, hinc, hloop]
        · rw [List.append_assoc]
          exact hsound'
        · apply (hfirst.trans hlast hroots (fun c hc => hc.not_stepped hstop)).congr
          intro c
          apply stepped_of_lt hp
      · refine ⟨[], s, ?_, h, .refl (fun c => not_stepped_of_le (Nat.le_of_not_lt hp))⟩
        apply unmapPages_of_le hp

end Unmap

/-! ### Freeing the tables -/

section FreeP4

variable {b r : Nat} {own live : Nat → Prop} {fs : List Nat} {s : Machine}

/-- The P4, the tables of the user half and the frames of the user pages are distinct frames. -/
theorem Sound.distinctFrames (h : Sound b own live fs s) (hr : own r) :
  DistinctFrames (words s.mem) r
  := by
  have hlive := h.owned hr
  have hT := h.half.userTree hlive
  -- the frame of an edge above the last level is a table, which has one path
  have htable : ∀ {e e' : Edge}, HasEdge (words s.mem) r e → e.User →
      HasEdge (words s.mem) r e' → e'.User →
      edgeFrame (words s.mem) r e = edgeFrame (words s.mem) r e' → e'.1.length ≤ 2 → e' = e := by
    intro e e' he huser he' huser' heq hlen'
    have hpath' := hT.table he' huser' hlen'
    rw [← heq] at hpath'
    have hlen : e'.path.length ≤ 3 := by
      rw [Edge.path, List.length_append, List.length_singleton]
      omega
    have hpath : e'.1 ++ [e'.2] = e.path := hT.unique he huser hlen huser'.2 hpath'
    exact (Edge.path_eq.mp hpath).symm
  constructor
  · intro e e' he huser he' huser' heq
    by_cases hlen' : e'.1.length ≤ 2
    · exact (htable he huser he' huser' heq hlen').symm
    · by_cases hlen : e.1.length ≤ 2
      · exact htable he' huser' he huser heq.symm hlen
      · obtain ⟨a, hpath, hoffset⟩ := edge_page (e := e) (by have := huser.1; omega)
        obtain ⟨a', hpath', hoffset'⟩ := edge_page (e := e') (by have := huser'.1; omega)
        have huserPage : ∀ {e : Edge} {a}, e.User → tablePath a = e.1 → p4Offset a ≠ 511 := by
          intro e a huser hpath hkernel
          apply huser.head
          rw [← hpath, tablePath, hkernel]
          rfl
        obtain ⟨hne, hframe⟩ := lookup_edge he hpath hoffset
        obtain ⟨hne', hframe'⟩ := lookup_edge he' hpath' hoffset'
        obtain ⟨-, hsame, hsame'⟩ := h.distinct hr hlive (huserPage huser hpath)
          (huserPage huser' hpath') hne hne' (by rw [hframe, hframe', heq])
        apply Prod.ext
        · rw [← hpath, ← hpath', hsame]
        · rw [← hoffset, ← hoffset', hsame']
  · intro e he huser heq
    have hwalk : walk (words s.mem) r [] = some (edgeFrame (words s.mem) r e) := by
      rw [heq]
      rfl
    have hpath : [] = e.1 ++ [e.2] :=
      hT.unique he huser (q := []) (Nat.zero_le 3) (by simp) hwalk
    simp at hpath
  · intro e t ht huser hlen
    by_contra hhuge
    rw [Bool.not_eq_false] at hhuge
    apply huser.head
    rw [h.half.huge (Or.inr hlive) hlen ht hhuge]
    rfl

/-- The frames of an address space are its tables and the frames of its pages. -/
theorem userFrame_iff {T : Words} {f : Nat} (h : KernelTables b T live) (hr : live r) :
  UserFrame T r f
    ↔ (∃ p, p.length ≤ 3 ∧ p.head? ≠ some 511 ∧ walk T r p = some f)
      ∨ ∃ c, p4Offset c ≠ 511 ∧ lookup T r c ≠ 0 ∧ lookup T r c / pageSize = f
  := by
  constructor
  · rintro (rfl | ⟨e, he, huser, rfl⟩)
    · exact Or.inl ⟨[], Nat.zero_le 3, by simp, rfl⟩
    · by_cases hlen : e.1.length ≤ 2
      · left
        refine ⟨e.path, ?_, huser.2, h.walk_edge hr he huser hlen⟩
        rw [Edge.path, List.length_append, List.length_singleton]
        omega
      · right
        apply page_of_edge he huser hlen
  · rintro (⟨p, hp, hhead, hwalk⟩ | ⟨c, hc, hne, rfl⟩)
    · apply userFrame_of_walk hp hhead hwalk
    · obtain ⟨hedge, huser, hframe⟩ := edge_of_lookup hc hne
      exact Or.inr ⟨_, hedge, huser, hframe.symm⟩

/-- The frames of an address space are in the direct map, and are not free. -/
theorem Sound.userFrame (h : Sound b own live fs s) (hlow : LowPages (words s.mem) live)
    (hr : live r) {f : Nat} (hf : UserFrame (words s.mem) r f) :
  frame f < 2 ^ 39 ∧ f ∉ fs
  := by
  obtain ⟨p, hp, -, hwalk⟩ | ⟨c, hc, hne, rfl⟩ := (userFrame_iff h.half.toKernelTables hr).mp hf
  · have hdom : Tables (Roots b live) r p := ⟨Or.inr hr, hp⟩
    exact ⟨h.half.direct hdom hwalk, fun hmem => (h.unused f hmem).2.1 ⟨r, p, hdom, hwalk⟩⟩
  · have hmapped : Mapped (words s.mem) live (lookup (words s.mem) r c / pageSize) :=
      ⟨r, c, hr, hc, hne, rfl⟩
    exact ⟨hlow hmapped, fun hmem => (h.unused _ hmem).2.2 hmapped⟩

/-- The frames of an address space are not mapped in another one. -/
theorem Sound.not_mapped (h : Sound b own live fs s) (hr : own r) {f : Nat}
    (hf : UserFrame (words s.mem) r f) :
  ¬ Mapped (words s.mem) (withoutRoot r live) f
  := by
  rintro ⟨q, c, ⟨hq, hne⟩, hc, hnec, rfl⟩
  have hlive := h.owned hr
  obtain ⟨p, hp, -, hwalk⟩ | ⟨a, ha, hnea, heq⟩ :=
    (userFrame_iff h.half.toKernelTables hlive).mp hf
  · exact h.half.mapped ⟨q, c, hq, hc, hnec, rfl⟩ ⟨r, p, ⟨Or.inr hlive, hp⟩, hwalk⟩
  · exact hne (h.distinct hr hq ha hc hnea hnec heq).1.symm

/-- `vmm_free_P4` frees the frames of the address space, each of them once, and leaves the other
address spaces as they are. -/
theorem Sound.freeP4 (h : Sound b own live fs s) (hlow : LowPages (words s.mem) live) (hr : own r) :
  ∃ L, L.Nodup ∧ (∀ f, f ∈ L ↔ UserFrame (words s.mem) r f)
    ∧ (vmmFreeP4 s (frame r)).freed = L ++ s.freed ∧ (vmmFreeP4 s (frame r)).taken = s.taken
    ∧ Sound b (withoutRoot r own) (withoutRoot r live) (L ++ fs) (vmmFreeP4 s (frame r))
    ∧ (∀ n, ¬ UserFrame (words s.mem) r n →
        words (vmmFreeP4 s (frame r)).mem n = words s.mem n)
    ∧ ∀ q c, Roots b (withoutRoot r live) q →
        lookup (words (vmmFreeP4 s (frame r)).mem) q c = lookup (words s.mem) q c
  := by
  have hlive := h.owned hr
  have hlt := (p2v_ne_zero (h.half.frame_lt (Or.inr hlive))).2
  obtain ⟨L, hnodup, hmem, hfreed, htaken, hwords, hstack⟩ := (h.distinctFrames hr).vmmFreeP4 hlt
  have hlookup : ∀ q c, Roots b (withoutRoot r live) q →
      lookup (words (vmmFreeP4 s (frame r)).mem) q c = lookup (words s.mem) q c :=
    fun q c hq => h.half.lookup_withoutRoot hlive hwords hq c
  have hnode : ∀ n, IsTable b (withoutRoot r live) (vmmFreeP4 s (frame r)) n
      ↔ Node child (words s.mem) (Tables (Roots b (withoutRoot r live))) n :=
    fun n => h.half.node_withoutRoot hlive hwords
  have hb : b ≠ r := by
    rintro rfl
    exact h.half.notBoot hlive
  have hroots : ∀ {q}, Roots b (withoutRoot r live) q → Roots b live q :=
    fun hq => ((roots_withoutRoot hb).mp hq).1
  have hmapped : ∀ {f}, Mapped (words (vmmFreeP4 s (frame r)).mem) (withoutRoot r live) f →
      Mapped (words s.mem) (withoutRoot r live) f := by
    rintro f ⟨q, c, hq, hc, hne, rfl⟩
    rw [hlookup q c (Or.inr hq)] at hne ⊢
    exact ⟨q, c, hq, hc, hne, rfl⟩
  have hmono : ∀ {f}, Mapped (words s.mem) (withoutRoot r live) f → Mapped (words s.mem) live f := by
    rintro f ⟨q, c, hq, hrest⟩
    exact ⟨q, c, hq.1, hrest⟩
  refine ⟨L, hnodup, hmem, hfreed, htaken, ?_, hwords, hlookup⟩
  constructor
  · exact h.half.withoutRoot hlive hwords
  · intro q p t i hq hp ht hne
    have hdom : Tables (Roots b (withoutRoot r live)) q p := ⟨hq, by omega⟩
    rw [h.half.walk_withoutRoot hlive hwords hdom] at ht
    rw [hwords t] at hne ⊢
    · exact h.present (hroots hq) hp ht hne
    · intro hframe
      exact h.half.not_node_of_userFrame hlive hframe ⟨q, p, hdom, ht⟩
    · intro hframe
      exact h.half.not_node_of_userFrame hlive hframe ⟨q, p, hdom, ht⟩
  · apply hstack fs h.stack
    · intro f hf hframe
      exact (h.userFrame hlow hlive hframe).2 hf
    · intro f hframe
      exact (p2v_ne_zero (h.userFrame hlow hlive hframe).1).1
  · apply List.nodup_append.mpr
    refine ⟨hnodup, h.nodup, ?_⟩
    rintro f hf g hg rfl
    exact (h.userFrame hlow hlive ((hmem f).mp hf)).2 hg
  · intro f hf
    obtain hf | hf := List.mem_append.mp hf
    · have hframe := (hmem f).mp hf
      exact ⟨(h.userFrame hlow hlive hframe).1,
        mt (hnode f).mp (h.half.not_node_of_userFrame hlive hframe),
        fun hm => h.not_mapped hr hframe (hmapped hm)⟩
    · obtain ⟨hltf, htable, hmap⟩ := h.unused f hf
      refine ⟨hltf, ?_, fun hm => hmap (hmono (hmapped hm))⟩
      intro hn
      obtain ⟨q, p, hp, hwalk⟩ := (hnode f).mp hn
      exact htable ⟨q, p, ⟨hroots hp.1, hp.2⟩, hwalk⟩
  · intro q c q' c' hq hq' hc hc' hne hne' heq
    rw [hlookup q c (Or.inr ⟨h.owned hq.1, hq.2⟩)] at hne heq
    rw [hlookup q' c' (Or.inr hq')] at hne' heq
    exact h.distinct hq.1 hq'.1 hc hc' hne hne' heq
  · exact fun hzero => h.nonzero hzero.1
  · exact fun hq => ⟨h.owned hq.1, hq.2⟩

end FreeP4

/-! ### The areas of a map -/

/-- The address lies in one of the pages that the page steps through the area meet. -/
def Area.Steps (area : Area) (c : Nat) : Prop :=
  Stepped area.start area.stop c

/-- The walk along the list of the map passes the areas `xs`, which are areas of this map, as is the
one before them. -/
structure Listed (k : Kernel) (m : Nat) (xs : List Nat) : Prop where
  chain : Chain k.link (k.map m).areas.next xs
  back : ∀ x ∈ xs.head?, ∀ p ∈ (k.link x).prev, p ∉ xs ∧ (k.area p).map = m
  lt : ∀ a ∈ xs, a < k.areas
  map : ∀ a ∈ xs, (k.area a).map = m

/-- Every page step through the areas `xs` meets a page of the address space `r` that is mapped, and
the steps through different areas meet different pages. -/
structure Filled (k : Kernel) (r : Nat) (xs : List Nat) : Prop where
  top : ∀ a ∈ xs, (k.area a).stop ≤ userspaceTop
  mapped : ∀ a ∈ xs, ∀ c, (k.area a).Steps c → lookup (words k.machine.mem) r c ≠ 0
  apart : ∀ a ∈ xs, ∀ a' ∈ xs, ∀ c, (k.area a).Steps c → (k.area a').Steps c → a = a'

/-- The kernel `k'` is the kernel `k` with another machine, and with another list of the map `m`. -/
structure Detached (m : Nat) (k k' : Kernel) : Prop where
  heapBrk : k'.heapBrk = k.heapBrk
  area : k'.area = k.area
  areas : k'.areas = k.areas
  maps : k'.maps = k.maps
  live : k'.live = k.live
  P4 : ∀ m', (k'.map m').P4 = (k.map m').P4
  map : ∀ m' ≠ m, k'.map m' = k.map m'
  link : ∀ a, (k.area a).map ≠ m → k'.link a = k.link a

theorem Listed.length_le {k : Kernel} {m : Nat} {xs : List Nat} (h : Listed k m xs) :
  xs.length ≤ k.areas
  := by
  have hsub : xs ⊆ List.range k.areas := by
    intro a ha
    rw [List.mem_range]
    exact h.lt a ha
  have hle := (List.subperm_of_subset h.chain.nodup hsub).length_le
  rwa [List.length_range] at hle

section Areas

variable {b r m o : Nat} {own : Nat → Prop} {fs xs ys : List Nat} {k k' k'' : Kernel}

/-- Taking the first area off the list. -/
theorem Listed.remove (h : Listed k m (o :: ys)) (s : Machine) :
  Detached m k ((k.withMachine s).withLists m (listRemove (k.map m).areas k.link o).1
      (listRemove (k.map m).areas k.link o).2)
    ∧ Listed ((k.withMachine s).withLists m (listRemove (k.map m).areas k.link o).1
      (listRemove (k.map m).areas k.link o).2) m ys
  := by
  have hhead : (k.map m).areas.next = some o := h.chain.head
  have hchain : Chain k.link (some o) (o :: ys) := hhead ▸ h.chain
  have hback := h.back o rfl
  have hnot : o ∉ ys := (List.nodup_cons.mp hchain.nodup).1
  have hself : (k.link o).next ≠ some o := by
    rw [hchain.2.head]
    intro heq
    exact hnot (List.mem_of_head? heq)
  obtain ⟨hrest, hprev⟩ := listRemove_chain (k.map m).areas hchain
    (fun p hp => (hback p hp).1)
  constructor
  · constructor
    · rfl
    · rfl
    · rfl
    · rfl
    · rfl
    · intro m'
      rw [Kernel.withLists_map]
      by_cases hm : m' = m
      · subst hm
        rw [Function.update_self]
        rfl
      · rw [Function.update_of_ne hm]
        rfl
    · intro m' hm
      rw [Kernel.withLists_map, Function.update_of_ne hm]
      rfl
    · intro a ha
      rw [Kernel.withLists_link]
      apply listRemove_of_ne hself
      · rintro rfl
        exact ha (h.map a List.mem_cons_self)
      · intro heq
        exact ha (hback a heq).2
      · intro heq
        rw [hchain.2.head] at heq
        exact ha (h.map a (List.mem_cons_of_mem o (List.mem_of_head? heq)))
  · constructor
    · have hfirst : (((k.withMachine s).withLists m (listRemove (k.map m).areas k.link o).1
          (listRemove (k.map m).areas k.link o).2).map m).areas.next = (k.link o).next := by
        rw [Kernel.withLists_map, Function.update_self, listRemove_head]
        apply if_pos hhead
      rw [hfirst]
      exact hrest
    · intro x hx p hp
      rw [Kernel.withLists_link, hprev x hx] at hp
      obtain ⟨hout, hmap⟩ := hback p hp
      exact ⟨fun hmem => hout (List.mem_cons_of_mem o hmem), hmap⟩
    · intro a ha
      exact h.lt a (List.mem_cons_of_mem o ha)
    · intro a ha
      exact h.map a (List.mem_cons_of_mem o ha)

theorem Detached.refl :
  Detached m k k
  := ⟨rfl, rfl, rfl, rfl, rfl, fun _ => rfl, fun _ _ => rfl, fun _ _ => rfl⟩

theorem Detached.trans (h : Detached m k k') (h' : Detached m k' k'') :
  Detached m k k''
  where
  heapBrk := h'.heapBrk.trans h.heapBrk
  area := h'.area.trans h.area
  areas := h'.areas.trans h.areas
  maps := h'.maps.trans h.maps
  live := h'.live.trans h.live
  P4 m' := (h'.P4 m').trans (h.P4 m')
  map m' hm := (h'.map m' hm).trans (h.map m' hm)
  link a ha := (h'.link a (by rwa [h.area])).trans (h.link a ha)

theorem Detached.root (h : Detached m k k') :
  k'.Root = k.Root
  := by
  funext q
  simp only [Kernel.Root, h.live, h.P4]

/-- `procmm_unmap` takes the first area off the list. -/
theorem procmmUnmap_of_pages {bootP4 : Nat} {s : Machine} (hlist : Listed k m (o :: ys))
    (hloop : unmapPages bootP4 (turns (k.area o).start (k.area o).stop + 1) k.machine (k.map m).P4
      (k.area o).start (k.area o).stop = some s) :
  ∃ k', procmmUnmap bootP4 k o = some k' ∧ k'.machine = s ∧ Detached m k k' ∧ Listed k' m ys
  := by
  have hcall : procmmUnmap bootP4 k o = some ((k.withMachine s).withLists m
      (listRemove (k.map m).areas k.link o).1 (listRemove (k.map m).areas k.link o).2) := by
    rw [procmmUnmap]
    simp only [hlist.map o List.mem_cons_self, hloop]
  obtain ⟨hdetached, hrest⟩ := hlist.remove s
  exact ⟨_, hcall, rfl, hdetached, hrest⟩

/-- The rest of `procmm_free_map`, when the areas have been taken off the list. -/
theorem procmmFreeMap_of_areas {bootP4 : Nat}
    (hloop : unmapAreas bootP4 (2 * k.areas + 1) k (k.map m).areas.next = some k') :
  ∃ k'', procmmFreeMap bootP4 k m = some k''
    ∧ k''.machine = vmmFreeP4 k'.machine (k'.map m).P4
    ∧ k''.live = Function.update k'.live m false
    ∧ k''.heapBrk = k'.heapBrk ∧ k''.area = k'.area ∧ k''.link = k'.link ∧ k''.areas = k'.areas
    ∧ k''.maps = k'.maps ∧ (∀ m', (k''.map m').P4 = (k'.map m').P4)
    ∧ ∀ m' ≠ m, k''.map m' = k'.map m'
  := by
  obtain ⟨k₂, hk₂⟩ : ∃ k₂, k₂ = (k'.setBrk m none).setStack m none := ⟨_, rfl⟩
  have hP4₂ : ∀ m', (k₂.map m').P4 = (k'.map m').P4 := by
    intro m'
    rw [hk₂, setStack_P4, setBrk_P4]
  have hfields : k₂.machine = k'.machine ∧ k₂.live = k'.live ∧ k₂.heapBrk = k'.heapBrk
      ∧ k₂.area = k'.area ∧ k₂.link = k'.link ∧ k₂.areas = k'.areas ∧ k₂.maps = k'.maps := by
    rw [hk₂]
    exact ⟨rfl, rfl, rfl, rfl, rfl, rfl, rfl⟩
  obtain ⟨hmachine, hlive, hheap, harea, hlink, hareas, hmaps⟩ := hfields
  have hcall : procmmFreeMap bootP4 k m
      = some { k₂.withMachine (vmmFreeP4 k₂.machine (k₂.map m).P4) with
          live := Function.update k₂.live m false } := by
    rw [procmmFreeMap, hloop, hk₂]
    rfl
  rw [hP4₂, hmachine, hlive] at hcall
  obtain ⟨s, hs⟩ : ∃ s, s = vmmFreeP4 k'.machine (k'.map m).P4 := ⟨_, rfl⟩
  rw [← hs] at hcall ⊢
  refine ⟨_, hcall, rfl, rfl, hheap, harea, hlink, hareas, hmaps, hP4₂, ?_⟩
  intro m' hm
  rw [Kernel.withMachine_map, hk₂, Kernel.setStack_map, Function.update_of_ne hm,
    Kernel.setBrk_map, Function.update_of_ne hm]

/-- `procmm_unmap` takes the first area off the list, and frees the frames of its pages. -/
theorem Ready.procmmUnmap (h : Ready b own fs k) (hlow : LowPages (words k.machine.mem) k.Root)
    (hP4 : (k.map m).P4 = frame r) (hr : own r) (hlist : Listed k m (o :: ys))
    (htop : (k.area o).stop ≤ userspaceTop)
    (hmapped : ∀ c, (k.area o).Steps c → lookup (words k.machine.mem) r c ≠ 0) :
  ∃ L k', procmmUnmap (frame b) k o = some k' ∧ Ready b own (L ++ fs) k'
    ∧ Unmaps b k.Root r (k.area o).Steps L k.machine k'.machine ∧ Detached m k k'
    ∧ Listed k' m ys
  := by
  obtain ⟨L, s, hloop, hsound, hunmaps⟩ :=
    h.sound.unmapPages hlow hr htop hmapped
      (Nat.lt_succ_self (turns (k.area o).start (k.area o).stop))
  rw [← hP4] at hloop
  obtain ⟨k', hcall, rfl, hdetached, hrest⟩ := procmmUnmap_of_pages hlist hloop
  have hheap : kernelHeapS ≤ k'.heapBrk ∧ k'.heapBrk % pageSize = 0 ∧ k'.heapBrk ≤ 2 ^ 64 := by
    rw [hdetached.heapBrk]
    exact h.heap
  refine ⟨L, k', hcall, ?_, hunmaps, hdetached, hrest⟩
  exact h.of_sound hdetached.live hdetached.maps hdetached.P4 hheap hsound

/-- The loop of `procmm_free_map` -/
theorem Ready.unmapAreas {fuel : Nat} (h : Ready b own fs k)
    (hlow : LowPages (words k.machine.mem) k.Root) (hP4 : (k.map m).P4 = frame r) (hr : own r)
    (hlist : Listed k m xs) (hfilled : Filled k r xs) (hfuel : xs.length < fuel) :
  ∃ L k', unmapAreas (frame b) fuel k xs.head? = some k' ∧ Ready b own (L ++ fs) k'
    ∧ Unmaps b k.Root r (fun c => ∃ a ∈ xs, (k.area a).Steps c) L k.machine k'.machine
    ∧ Detached m k k' ∧ Listed k' m []
  := by
  induction xs generalizing fuel fs k with
  | nil =>
      cases fuel with
      | zero => exact absurd hfuel (Nat.not_lt_zero _)
      | succ fuel => exact ⟨[], k, rfl, h, .refl (by simp), .refl, hlist⟩
  | cons o ys ih =>
      cases fuel with
      | zero => exact absurd hfuel (Nat.not_lt_zero _)
      | succ fuel =>
          have ho : o ∈ o :: ys := List.mem_cons_self
          have hnotMem : o ∉ ys := (List.nodup_cons.mp hlist.chain.nodup).1
          have hroots : Roots b k.Root r := Or.inr (h.sound.owned hr)
          obtain ⟨L, k₁, hcall, hready, hunmaps, hdetached, hlist₁⟩ :=
            h.procmmUnmap hlow hP4 hr hlist (hfilled.top o ho) (hfilled.mapped o ho)
          have hroot := hdetached.root
          have hfilled₁ : Filled k₁ r ys := by
            constructor
            · intro a ha
              rw [hdetached.area]
              exact hfilled.top a (List.mem_cons_of_mem o ha)
            · intro a ha c hc
              rw [hdetached.area] at hc
              have ha' := List.mem_cons_of_mem o ha
              rw [hunmaps.kept hroots]
              · exact hfilled.mapped a ha' c hc
              · rintro ⟨-, hfirst⟩
                obtain rfl := hfilled.apart o ho a ha' c hfirst hc
                exact hnotMem ha
            · intro a ha a' ha' c hc hc'
              rw [hdetached.area] at hc hc'
              exact hfilled.apart a (List.mem_cons_of_mem o ha) a' (List.mem_cons_of_mem o ha') c
                hc hc'
          have hlow₁ : LowPages (words k₁.machine.mem) k₁.Root := by
            rw [hroot]
            exact hunmaps.lowPages hlow
          obtain ⟨L', k', hloop, hready', hrest, hdetached', hlist'⟩ :=
            ih hready hlow₁ ((hdetached.P4 m).trans hP4) hlist₁ hfilled₁
              (Nat.lt_of_succ_lt_succ hfuel)
          have hlinks : (k.link o).next = ys.head? := hlist.chain.2.head
          refine ⟨L' ++ L, k', ?_, ?_, ?_, hdetached.trans hdetached', hlist'⟩
          · rw [List.head?_cons, Procmm.unmapAreas, hcall, hlinks]
            exact hloop
          · rw [List.append_assoc]
            exact hready'
          · rw [hroot] at hrest
            apply (hunmaps.trans hrest hroots _).congr
            · intro c
              rw [hdetached.area]
              simp only [List.mem_cons, exists_eq_or_imp]
            · rintro c hc ⟨a, ha, hc'⟩
              rw [hdetached.area] at hc'
              obtain rfl := hfilled.apart o ho a (List.mem_cons_of_mem o ha) c hc hc'
              exact hnotMem ha

/-- The kernel `k'` is the kernel `k` without the map `m`, which had the address space `r`. -/
structure FreedMap (b m r : Nat) (k k' : Kernel) : Prop where
  area : k'.area = k.area
  areas : k'.areas = k.areas
  maps : k'.maps = k.maps
  live : k'.live = Function.update k.live m false
  root : k'.Root = withoutRoot r k.Root
  map : ∀ m' ≠ m, k'.map m' = k.map m'
  link : ∀ a, (k.area a).map ≠ m → k'.link a = k.link a
  walks : ∀ {q p}, Tables (Roots b k'.Root) q p →
    walk (words k'.machine.mem) q p = walk (words k.machine.mem) q p
  entries : ∀ {q c}, k'.Root q → lookup (words k'.machine.mem) q c = lookup (words k.machine.mem) q c

/-- The live maps but for one. -/
theorem Ready.root_withoutMap (h : Ready b own fs k) (hlive : k.live m = true)
    (hP4 : (k.map m).P4 = frame r) (hlive' : k'.live = Function.update k.live m false)
    (hP4' : ∀ m', (k'.map m').P4 = (k.map m').P4) :
  k'.Root = withoutRoot r k.Root
  := by
  funext q
  apply propext
  constructor
  · rintro ⟨m', hm', hq⟩
    rw [hlive'] at hm'
    rw [hP4'] at hq
    have hne : m' ≠ m := by
      rintro rfl
      rw [Function.update_self] at hm'
      cases hm'
    rw [Function.update_of_ne hne] at hm'
    refine ⟨⟨m', hm', hq⟩, ?_⟩
    rintro rfl
    exact hne (h.own hm' hlive (hq.trans hP4.symm))
  · rintro ⟨⟨m', hm', hq⟩, hne⟩
    have hmm : m' ≠ m := by
      rintro rfl
      exact hne (frame_inj (hq.symm.trans hP4))
    refine ⟨m', ?_, ?_⟩
    · rw [hlive', Function.update_of_ne hmm]
      exact hm'
    · rw [hP4']
      exact hq

/-- The frames of an address space are those of the pages that have been unmapped and those that it
still has. -/
theorem Unmaps.userFrame_iff {live page : Nat → Prop} {L : List Nat} {s s' : Machine}
    (h : Unmaps b live r page L s s') (hT : KernelTables b (words s.mem) live)
    (hT' : KernelTables b (words s'.mem) live) (hr : live r) (hpage : ∀ c, page c → p4Offset c ≠ 511)
    (hmapped : ∀ c, page c → lookup (words s.mem) r c ≠ 0) (f : Nat) :
  UserFrame (words s.mem) r f ↔ f ∈ L ∨ UserFrame (words s'.mem) r f
  := by
  have hroots : Roots b live r := Or.inr hr
  rw [Procmm.userFrame_iff hT hr, Procmm.userFrame_iff hT' hr, h.frames]
  constructor
  · rintro (⟨p, hp, hhead, hwalk⟩ | ⟨c, hc, hne, hf⟩)
    · exact Or.inr (Or.inl ⟨p, hp, hhead, (h.walks ⟨hroots, hp⟩).trans hwalk⟩)
    · by_cases hcpage : page c
      · exact Or.inl ⟨c, hcpage, hf⟩
      · have hkept := h.kept (c := c) hroots (fun hand => hcpage hand.2)
        rw [← hkept] at hne hf
        exact Or.inr (Or.inr ⟨c, hc, hne, hf⟩)
  · rintro (⟨c, hc, hf⟩ | ⟨p, hp, hhead, hwalk⟩ | ⟨c, hc, hne, hf⟩)
    · exact Or.inr ⟨c, hpage c hc, hmapped c hc, hf⟩
    · have hdom : Tables (Roots b live) r p := ⟨hroots, hp⟩
      rw [h.walks hdom] at hwalk
      exact Or.inl ⟨p, hp, hhead, hwalk⟩
    · have hkept := (h.lookup_of_ne (q := r) (c := c) hroots hne).1
      rw [hkept] at hne hf
      exact Or.inr ⟨c, hc, hne, hf⟩

/-- `procmm_free_map` for a map whose page steps all meet pages of their own: it frees the frames of
the address space, each of them once, and no other. -/
theorem Ready.procmmFreeMap (h : Ready b own fs k) (hlow : LowPages (words k.machine.mem) k.Root)
    (hlive : k.live m = true) (hP4 : (k.map m).P4 = frame r) (hr : own r)
    (hlist : Listed k m xs) (hfilled : Filled k r xs) :
  ∃ L k', procmmFreeMap (frame b) k m = some k' ∧ L.Nodup
    ∧ (∀ f, f ∈ L ↔ UserFrame (words k.machine.mem) r f)
    ∧ k'.machine.taken = k.machine.taken ∧ k'.machine.freed = L ++ k.machine.freed
    ∧ Ready b (withoutRoot r own) (L ++ fs) k' ∧ LowPages (words k'.machine.mem) k'.Root
    ∧ FreedMap b m r k k'
  := by
  have hroot := h.sound.owned hr
  have hlen : xs.length < 2 * k.areas + 1 := by
    have hle := hlist.length_le
    omega
  obtain ⟨L, k₁, hloop, hready, hunmaps, hdetached, -⟩ :=
    h.unmapAreas hlow hP4 hr hlist hfilled hlen
  have hroot₁ := hdetached.root
  have hsound := hready.sound
  rw [hroot₁] at hsound
  obtain ⟨L', hnodup, hmem, hfreed, htaken, hsound', hwords, hlookup⟩ :=
    hsound.freeP4 (hunmaps.lowPages hlow) hr
  obtain ⟨htaken₁, hfreed₁⟩ := hunmaps.history
  rw [← hlist.chain.head] at hloop
  obtain ⟨k', hcall, hmachine', hlive', hheap', harea', hlink', hareas', hmaps', hP4₁, hmap'⟩ :=
    procmmFreeMap_of_areas hloop
  have hP4' : ∀ m', (k'.map m').P4 = (k.map m').P4 := by
    intro m'
    rw [hP4₁, hdetached.P4]
  rw [hdetached.P4, hP4] at hmachine'
  rw [hdetached.live] at hlive'
  rw [← hmachine'] at hfreed htaken hsound' hlookup hwords
  have hroot' := h.root_withoutMap hlive hP4 hlive' hP4'
  have hold : ∀ {m'}, k'.live m' = true → k.live m' = true := by
    intro m' hm'
    rw [hlive'] at hm'
    by_cases hm : m' = m
    · rw [hm]
      exact hlive
    · rwa [Function.update_of_ne hm] at hm'
  have hentries : ∀ {q c}, k'.Root q →
      lookup (words k'.machine.mem) q c = lookup (words k₁.machine.mem) q c := by
    intro q c hq
    rw [hroot'] at hq
    exact hlookup q c (Or.inr hq)
  have huser : ∀ c, (∃ a ∈ xs, (k.area a).Steps c) → p4Offset c ≠ 511 := by
    rintro c ⟨a, ha, hc⟩
    exact hc.user (hfilled.top a ha)
  have hframes := hunmaps.userFrame_iff h.sound.half.toKernelTables hsound.half.toKernelTables hroot
    huser (by rintro c ⟨a, ha, hc⟩; exact hfilled.mapped a ha c hc)
  refine ⟨L' ++ L, k', hcall, ?_, ?_, ?_, ?_, ?_, ?_, ?_⟩
  · apply List.nodup_append.mpr
    refine ⟨hnodup, (List.nodup_append.mp hready.sound.nodup).1, ?_⟩
    rintro f hf g hg rfl
    exact (hsound.userFrame (hunmaps.lowPages hlow) hroot ((hmem f).mp hf)).2
      (List.mem_append_left fs hg)
  · intro f
    rw [hframes f, List.mem_append, hmem f, or_comm]
  · rw [htaken, htaken₁]
  · rw [hfreed, hfreed₁, List.append_assoc]
  · constructor
    · rw [hroot', List.append_assoc]
      exact hsound'
    · rw [hheap', hdetached.heapBrk]
      exact h.heap
    · intro m' hm'
      rw [hmaps', hdetached.maps, hP4']
      exact h.aligned (hold hm')
    · intro m' m'' hm' hm'' heq
      rw [hP4', hP4'] at heq
      exact h.own (hold hm') (hold hm'') heq
  · rintro f ⟨q, c, hq, hc, hne, rfl⟩
    rw [hentries hq] at hne ⊢
    rw [hroot'] at hq
    exact hunmaps.lowPages hlow ⟨q, c, hq.1, hc, hne, rfl⟩
  · constructor
    · rw [harea', hdetached.area]
    · rw [hareas', hdetached.areas]
    · rw [hmaps', hdetached.maps]
    · exact hlive'
    · exact hroot'
    · intro m' hm
      rw [hmap' m' hm, hdetached.map m' hm]
    · intro a ha
      rw [hlink', hdetached.link a ha]
    · intro q p hp
      rw [hroot'] at hp
      have hroots : Roots b k.Root q := hp.1.imp_right And.left
      rw [hsound.half.walk_withoutRoot hroot hwords hp, hunmaps.walks ⟨hroots, hp.2⟩]
    · intro q c hq
      rw [hentries hq]
      rw [hroot'] at hq
      exact hunmaps.kept (Or.inr hq.1) (fun hand => hq.2 hand.1)

end Areas

end Procmm
