import Mittos64.Proc.SpaceStart

/-!
# Isolation of the address spaces

In every run of proper calls no frame is mapped at two user pages, and no frame that is mapped or a
page table is on the free stack, as long as a map is freed only when all its page steps meet pages of
their own.  A step that meets no page frees the frame 0, also when another process uses it.
-/

open DList

namespace Procmm

open Mem

/-- No frame is mapped at two user pages, and the frames of the user pages of live address spaces and
the page tables are not on the free stack. -/
structure Isolated (b : Nat) (k : Kernel) : Prop where
  distinct : ∀ {m m' r r' c c'}, k.live m = true → k.live m' = true → (k.map m).P4 = frame r →
    (k.map m').P4 = frame r' → p4Offset c ≠ 511 → p4Offset c' ≠ 511 →
    lookup (words k.machine.mem) r c ≠ 0 → lookup (words k.machine.mem) r' c' ≠ 0 →
    lookup (words k.machine.mem) r c / pageSize = lookup (words k.machine.mem) r' c' / pageSize →
    m = m' ∧ SamePage c c'
  free : ∃ fs, Stacked fs k.machine ∧ ∀ f ∈ fs,
    ¬ Mapped (words k.machine.mem) k.Root f ∧ ¬ IsTable b k.Root k.machine f

/-- In every run of proper calls in which `procmm_free_map` is called only for maps whose page steps all
meet pages of their own, the address spaces are isolated. -/
theorem isolated_of_run {b : Nat} {grow : Nat → Nat} {k : Kernel}
    (h : Reachable (Empty b) (WholeStep b grow) k) :
  Isolated b k
  := by
  obtain ⟨fs, hheld⟩ := held_of_run h
  have hready := hheld.steady.ready
  constructor
  · intro m m' r r' c c' hm hm' hr hr' hc hc' hne hne' heq
    obtain ⟨rfl, hsame⟩ := hready.sound.distinct ⟨m, hm, hr⟩ ⟨m', hm', hr'⟩ hc hc' hne hne' heq
    exact ⟨hready.own hm hm' (hr.trans hr'.symm), hsame⟩
  · refine ⟨fs, hready.sound.stack, ?_⟩
    intro f hf
    obtain ⟨-, htable, hmapped⟩ := hready.sound.unused f hf
    exact ⟨hmapped, htable⟩

/-- Two processes with one page each. -/
theorem isolated_of_run_twoProcesses :
  ∃ q r k, TwoProcesses q r k ∧ Isolated 16 k
  := by
  obtain ⟨q, r, k, fs, hstage, htwo⟩ := exists_twoProcesses
  exact ⟨q, r, k, htwo, isolated_of_run (wholeRun_of_fresh hstage.run)⟩

/-! ### A step that meets no page -/

section Null

variable {b r a : Nat} {T : Words} {own own' live live' : Nat → Prop} {fs : List Nat} {s : Machine}

/-- Some of the address spaces. -/
theorem KernelHalf.restrict (h : KernelHalf b T live) (hlive : ∀ q, live' q → live q) :
  KernelHalf b T live'
  := by
  have hroots : ∀ {q}, Roots b live' q → Roots b live q := fun hq => hq.imp_right (hlive _)
  have hdom : ∀ q p, Tables (Roots b live') q p → Tables (Roots b live) q p :=
    fun q p hp => ⟨hroots hp.1, hp.2⟩
  refine ⟨⟨?_, ?_, ?_, h.boot, ?_, ?_⟩, ?_⟩
  · exact h.forest.mono tables_closed hdom
  · exact fun hq hp ht hhuge => h.huge (hroots hq) hp ht hhuge
  · exact fun hp ht => h.direct (hdom _ _ hp) ht
  · exact fun hb => h.notBoot (hlive b hb)
  · exact fun hq => h.kernel (hlive _ hq)
  · rintro f ⟨q, c, hq, hc, hne, hf⟩ ⟨p, path, hp, hwalk⟩
    exact h.mapped ⟨q, c, hlive q hq, hc, hne, hf⟩ ⟨p, path, hdom p path hp, hwalk⟩

/-- The machine is sound for some of the address spaces. -/
theorem Sound.restrict (h : Sound b own live fs s) (hlive : ∀ q, live' q → live q)
    (hown : ∀ q, own' q → own q ∧ live' q) :
  Sound b own' live' fs s
  := by
  have hroots : ∀ {q}, Roots b live' q → Roots b live q := fun hq => hq.imp_right (hlive _)
  refine ⟨KernelHalf.restrict h.half hlive, ?_, h.stack, h.nodup, ?_, ?_, ?_, fun hq => (hown _ hq).2⟩
  · exact fun hq hp ht hne => h.present (hroots hq) hp ht hne
  · intro f hf
    obtain ⟨hlt, htable, hmapped⟩ := h.unused f hf
    refine ⟨hlt, ?_, ?_⟩
    · rintro ⟨q, p, hp, hwalk⟩
      exact htable ⟨q, p, ⟨hroots hp.1, hp.2⟩, hwalk⟩
    · rintro ⟨q, c, hq, hrest⟩
      exact hmapped ⟨q, c, hlive q hq, hrest⟩
  · exact fun hq hq' hc hc' hne hne' heq =>
      h.distinct (hown _ hq).1 (hlive _ hq') hc hc' hne hne' heq
  · exact fun hzero => h.nonzero (hlive 0 hzero)

/-- `pmm_free` for a frame that is not in use. -/
theorem Sound.push {f : Nat} (h : Sound b own live fs s) (hf : Unused b (words s.mem) live f)
    (hnot : f ∉ fs) :
  Sound b own live (f :: fs) (pmmFree s (frame f))
    ∧ ∀ n, n ≠ f → words (pmmFree s (frame f)).mem n = words s.mem n
  := by
  obtain ⟨hltf, htable, hmapped⟩ := hf
  obtain ⟨hpointer, hlt⟩ := p2v_ne_zero hltf
  have hwords : ∀ n, n ≠ f → words (pmmFree s (frame f)).mem n = words s.mem n := by
    intro n hn
    funext j
    rw [words_pmmFree hlt h.stack.2.lt, frame_div, setWord_of_ne _ _ (Or.inl hn)]
  have hstack : Stacked (f :: fs) (pmmFree s (frame f)) := by
    have hfree := h.stack.free hlt (by rwa [stripFlags_eq, frame_div]) (by rwa [frame_div])
    rwa [frame_div] at hfree
  obtain ⟨s₁, hs₁⟩ : ∃ s₁, s₁ = pmmFree s (frame f) := ⟨_, rfl⟩
  rw [← hs₁] at hwords hstack ⊢
  have htables : ∀ n, IsTable b live s n → words s₁.mem n = words s.mem n := by
    intro n hn
    apply hwords
    rintro rfl
    exact htable hn
  have hlinks : ∀ g ∈ fs, words s₁.mem g 0 = words s.mem g 0 := by
    intro g hg
    rw [hwords]
    rintro rfl
    exact hnot hg
  obtain ⟨hsound, hnode, hlookup⟩ := h.withMem htables hlinks
  refine ⟨⟨hsound.half, hsound.present, hstack, List.nodup_cons.mpr ⟨hnot, h.nodup⟩, ?_,
    hsound.distinct, h.nonzero, h.owned⟩, hwords⟩
  intro g hg
  obtain rfl | hg := List.mem_cons.mp hg
  · refine ⟨hltf, fun hn => htable ((hnode g).mp hn), ?_⟩
    rintro ⟨q, c, hq, hc, hne, heq⟩
    rw [hlookup q c (Or.inr hq)] at hne heq
    exact hmapped ⟨q, c, hq, hc, hne, heq⟩
  · exact hsound.unused g hg

/-- A turn of `procmm_unmap` at a page that is not mapped, in a table that is there: `vmm_get_page`
returns 0, and the frame 0 is freed. -/
theorem Sound.unmapNull {t : Nat} (h : Sound b own live fs s) (hr : live r) (ha : p4Offset a ≠ 511)
    (hzero : lookup (words s.mem) r a = 0) (ht : walk (words s.mem) r (tablePath a) = some t)
    (hnull : Unused b (words s.mem) live 0) (hnot : 0 ∉ fs) :
  ∃ v s', vmmSetPage (frame b) (pmmFree s (vmmGetPage (frame b) s (frame r) a)) (frame r) a 0 0
      = some (v, s')
    ∧ Sound b own live (0 :: fs) s' ∧ ∀ n, n ≠ 0 → words s'.mem n = words s.mem n
  := by
  have hrne : r ≠ 0 := by
    rintro rfl
    exact h.nonzero hr
  have hroot := resolveP4_frame (b := b) hrne
  have hget : vmmGetPage (frame b) s (frame r) a = frame 0 := by
    rw [h.half.vmmGetPage_eq (Or.inr hr) hroot, hzero]
    · rfl
    · rintro ⟨hkernel, -⟩
      exact ha hkernel
  obtain ⟨hsound, hwords⟩ := h.push hnull hnot
  rw [hget]
  obtain ⟨s₁, hs₁⟩ : ∃ s₁, s₁ = pmmFree s (frame 0) := ⟨_, rfl⟩
  rw [← hs₁] at hsound hwords ⊢
  have htables : ∀ n, IsTable b live s n → words s₁.mem n = words s.mem n := by
    intro n hn
    apply hwords
    rintro rfl
    exact hnull.2.1 hn
  have hdom : Tables (Roots b live) r (tablePath a) := ⟨Or.inr hr, Nat.le_refl 3⟩
  have ht₁ : walk (words s₁.mem) r (tablePath a) = some t :=
    (h.half.walk_congr htables hdom).trans ht
  have hpointer := p2v_ne_zero (h.half.direct hdom ht)
  obtain ⟨v, hset⟩ := vmmSetPage_walk 0 0 hroot ht₁ hpointer.1 hpointer.2
  have hvalue : addFlags 0 0 = 0 := rfl
  rw [hvalue] at hset
  have hentry : words s₁.mem t (p1Offset a) = 0 := by
    rw [htables t ⟨r, _, hdom, ht⟩]
    rw [lookup, ht] at hzero
    exact hzero
  -- the entry is 0 already
  have hsame : words (setEntry s₁ (frame t) (p1Offset a) 0).mem = words s₁.mem := by
    rw [words_setEntry _ _ _ (by decide)]
    funext n j
    by_cases hn : n = t ∧ j = p1Offset a
    · rw [hn.1, hn.2, setWord_self, hentry]
    · rw [setWord_of_ne _ _ (Decidable.not_and_iff_or_not.mp hn)]
  refine ⟨v, _, hset, ?_, ?_⟩
  · apply (hsound.withMem _ _).1
    · exact fun n _ => congrFun hsame n
    · exact fun f _ => congrFun (congrFun hsame f) 0
  · intro n hn
    rw [hsame, hwords n hn]

end Null

/-- `procmm_unmap` for the area of two pages, of which the second one is not mapped: the frame 0 is free
then, and still mapped by the first process. -/
theorem Gap.unmapPages {q r : Nat} {k : Kernel} (hgap : Gap q r k) :
  ∃ s fs, unmapPages (frame 16) 3 k.machine (frame r) 0x1000 0x3000 = some s
    ∧ Sound 16 (· = r) (· = r) (0 :: fs) s ∧ LowPages (words s.mem) (· = r)
    ∧ KernelHalf 16 (words s.mem) k.Root
    ∧ lookup (words s.mem) q 0x1000 = addFlags (frame 0) userFlags
  := by
  obtain ⟨fs, hheld⟩ := held_of_run hgap.run
  have hsound := hheld.steady.ready.sound
  have hq : k.Root q := ⟨0, hgap.live.1, hgap.P4.1⟩
  have hr : k.Root r := ⟨1, hgap.live.2, hgap.P4.2⟩
  have hne : q ≠ r := by
    rintro rfl
    have heq := hheld.steady.ready.own hgap.live.1 hgap.live.2 (hgap.P4.1.trans hgap.P4.2.symm)
    cases heq
  obtain ⟨v₁, s₁, hset₁, hsound₁, hunmaps⟩ :=
    hsound.unmapPage hheld.steady.low hr (by decide) hgap.page
  obtain ⟨fs₁, hfs₁⟩ : ∃ fs₁, fs₁ = lookup (words k.machine.mem) r 0x1000 / pageSize :: fs := ⟨_, rfl⟩
  rw [← hfs₁] at hsound₁
  have hnull₁ : lookup (words s₁.mem) q 0x1000 = addFlags (frame 0) userFlags := by
    rw [hunmaps.kept (Or.inr hq) (fun hand => hne hand.1), hgap.null]
  have hhole₁ : lookup (words s₁.mem) r 0x2000 = 0 := by
    have hapart : ¬ SamePage 0x1000 0x2000 := by
      rw [samePage_iff (by decide) (by decide)]
      decide
    rw [hunmaps.kept (Or.inr hr) (fun hand => hapart hand.2), hgap.hole]
  obtain ⟨t, ht, -⟩ := walk_of_lookup hgap.page
  have ht₁ : walk (words s₁.mem) r (tablePath 0x2000) = some t := by
    have hpath : tablePath 0x2000 = tablePath 0x1000 := by decide
    have hdom : Tables (Roots 16 k.Root) r (tablePath 0x1000) := ⟨Or.inr hr, Nat.le_refl 3⟩
    rw [hpath, hunmaps.walks hdom, ht]
  -- the frame 0 is in use by the first process only
  have hmapped : Mapped (words s₁.mem) k.Root 0 := by
    refine ⟨q, 0x1000, hq, by decide, ?_, ?_⟩
    · rw [hnull₁]
      exact (userFlags_entry 0).1
    · rw [hnull₁]
      exact (userFlags_entry 0).2.symm
  have htable : ¬ IsTable 16 k.Root s₁ 0 := hsound₁.half.mapped hmapped
  have hnot : 0 ∉ fs₁ := fun hmem => (hsound₁.unused 0 hmem).2.2 hmapped
  have hlive : ∀ p, p = r → k.Root p := by
    rintro p rfl
    exact hr
  have hrest : Sound 16 (· = r) (· = r) fs₁ s₁ :=
    hsound₁.restrict hlive (fun p hp => ⟨hlive p hp, hp⟩)
  have hunused : Unused 16 (words s₁.mem) (· = r) 0 := by
    refine ⟨by decide, ?_, ?_⟩
    · rintro ⟨p, path, hp, hwalk⟩
      exact htable ⟨p, path, ⟨hp.1.imp_right (hlive p), hp.2⟩, hwalk⟩
    · rintro ⟨p, c, rfl, hc, hne', heq⟩
      have hpage : p4Offset 0x1000 ≠ 511 := by decide
      apply hne
      apply (hsound₁.distinct hq hr hpage hc _ hne' _).1
      · rw [hnull₁]
        exact (userFlags_entry 0).1
      · rw [hnull₁, ← heq]
        exact (userFlags_entry 0).2
  obtain ⟨v₂, s₂, hset₂, hsound₂, hwords⟩ :=
    hrest.unmapNull rfl (by decide) hhole₁ ht₁ hunused hnot
  have htables : ∀ n, IsTable 16 k.Root s₁ n → words s₂.mem n = words s₁.mem n := by
    intro n hn
    apply hwords
    rintro rfl
    exact htable hn
  have hlookup : ∀ {p}, k.Root p → ∀ c, lookup (words s₂.mem) p c = lookup (words s₁.mem) p c :=
    fun hp c => hsound₁.half.lookup_congr htables (Or.inr hp) c
  refine ⟨s₂, fs₁, ?_, hsound₂, ?_, hsound₁.half.congr htables, ?_⟩
  · have hinc₁ : incptr 0x1000 pageSize = 0x2000 := by decide
    have hinc₂ : incptr 0x2000 pageSize = 0x3000 := by decide
    rw [unmapPages_of_lt (by decide) hset₁, hinc₁, unmapPages_of_lt (by decide) hset₂, hinc₂,
      unmapPages_of_le (Nat.lt_irrefl _)]
  · rintro f ⟨p, c, rfl, hc, hne', rfl⟩
    rw [hlookup hr] at hne' ⊢
    exact hunmaps.lowPages hheld.steady.low ⟨p, c, hr, hc, hne', rfl⟩
  · rw [hlookup hq, hnull₁]

/-- The second process is freed, and with it the frame 0, which the first process still uses. -/
theorem not_isolated_of_gap :
  ∃ k, Reachable (Empty 16)
      (fun k k' => ∃ e, k.Proper 16 (fun _ => 0) e ∧ k.step (frame 16) (fun _ => 0) e = some k') k
    ∧ ¬ Isolated 16 k
  := by
  obtain ⟨q, r, k, hgap⟩ := exists_gap
  obtain ⟨s, fs, hpages, hsound, hlow, hhalf, hnull⟩ := hgap.unmapPages
  have hready := (held_of_run hgap.run).choose_spec.steady.ready
  have hne : q ≠ r := by
    rintro rfl
    have heq := hready.own hgap.live.1 hgap.live.2 (hgap.P4.1.trans hgap.P4.2.symm)
    cases heq
  -- the areas are taken off the list one after the other
  obtain ⟨k₁, hcall₁, hmachine₁, hdetached₁, hlist₁⟩ : ∃ k₁, procmmUnmap (frame 16) k 1 = some k₁
      ∧ k₁.machine = s ∧ Detached 1 k k₁ ∧ Listed k₁ 1 [2] := by
    apply procmmUnmap_of_pages hgap.list
    rw [hgap.area.1, hgap.P4.2]
    exact hpages
  obtain ⟨k₂, hcall₂, hmachine₂, hdetached₂, -⟩ : ∃ k₂, procmmUnmap (frame 16) k₁ 2 = some k₂
      ∧ k₂.machine = s ∧ Detached 1 k₁ k₂ ∧ Listed k₂ 1 [] := by
    apply procmmUnmap_of_pages hlist₁
    rw [hdetached₁.area, hgap.area.2, hmachine₁]
    exact unmapPages_of_le (Nat.lt_irrefl _)
  have hloop : unmapAreas (frame 16) (2 * k.areas + 1) k (k.map 1).areas.next = some k₂ := by
    obtain ⟨fuel, hfuel⟩ : ∃ fuel, 2 * k.areas + 1 = fuel + 3 := by
      have hlt := hgap.list.lt 2 (by decide)
      exact ⟨2 * k.areas - 2, by omega⟩
    have hnext : (k₁.link 2).next = none := hlist₁.chain.2
    rw [hfuel, hgap.list.chain.1, unmapAreas, hcall₁, hgap.list.chain.2.1]
    dsimp only
    rw [unmapAreas, hcall₂, hnext]
    rfl
  obtain ⟨k', hcall, hmachine, hlive, -, -, -, -, -, hP4, -⟩ := procmmFreeMap_of_areas hloop
  rw [hmachine₂, hdetached₂.P4, hdetached₁.P4, hgap.P4.2] at hmachine
  rw [hdetached₂.live, hdetached₁.live] at hlive
  refine ⟨k', ?_, ?_⟩
  · have hrun : Reachable (Empty 16) (fun k k' => ∃ e, k.Proper 16 (fun _ => 0) e
        ∧ k.step (frame 16) (fun _ => 0) e = some k') k := by
      apply hgap.run.mono
      rintro k k' ⟨e, hproper, -, hstep⟩
      exact ⟨e, hproper, hstep⟩
    exact hrun.next ⟨.freeMap 1, hgap.live.2, hcall⟩
  · intro hisolated
    obtain ⟨L, -, -, -, -, hsound', hwords, -⟩ := hsound.freeP4 hlow rfl
    rw [← hmachine] at hsound' hwords
    obtain ⟨gs, hstack, hunused⟩ := hisolated.free
    obtain rfl := hstack.2.unique hsound'.stack.2
    apply (hunused 0 (List.mem_append_right L List.mem_cons_self)).1
    have hq : k.Root q := ⟨0, hgap.live.1, hgap.P4.1⟩
    have hr : k.Root r := ⟨1, hgap.live.2, hgap.P4.2⟩
    have hlookup := hhalf.lookup_withoutRoot hr hwords (Or.inr ⟨hq, hne⟩) 0x1000
    have hlive₀ : k'.live 0 = true := by
      rw [hlive, Function.update_of_ne (by decide), hgap.live.1]
    have hP4₀ : (k'.map 0).P4 = frame q := by
      rw [hP4, hdetached₂.P4, hdetached₁.P4, hgap.P4.1]
    refine ⟨q, 0x1000, ⟨0, hlive₀, hP4₀⟩, by decide, ?_, ?_⟩
    · rw [hlookup, hnull]
      exact (userFlags_entry 0).1
    · rw [hlookup, hnull]
      exact (userFlags_entry 0).2.symm

end Procmm
