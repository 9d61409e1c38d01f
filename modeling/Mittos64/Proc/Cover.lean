import Mittos64.Proc.Setup
import Mittos64.Proc.Start

/-!
# The pages that `procmm_map` maps

`procmm_map` compares the new area with the others by their bytes, and maps pages in steps from the
start of the area.  So it maps a page to a new frame just when the steps go through it, whether the
page belongs to another area or not, and the last page of the area may be left out.
-/

open DList

namespace Procmm

open Mem

/-- The steps of a page from `start` on reach the page of the last byte before `stop`. -/
def Reaches (start stop : Nat) : Prop :=
  start = stop ∨ start % pageSize ≤ (stop - 1) % pageSize

instance (start stop : Nat) : Decidable (Reaches start stop) :=
  inferInstanceAs (Decidable (_ ∨ _))

/-- The steps go through all pages of the range just when they reach the last one. -/
theorem reaches_iff {start stop : Nat} (hle : start ≤ stop) (hstop : stop ≤ userspaceTop) :
  Reaches start stop ↔ ∀ c, start ≤ c → c < stop → Stepped start stop c
  := by
  rw [userspaceTop] at hstop
  have hpage : ∀ {i c}, start + pageSize * i < stop → c < stop →
      (SamePage (start + pageSize * i) c ↔ c / pageSize = start / pageSize + i) := by
    intro i c hi hc
    rw [samePage_iff (by omega) (by omega), Nat.add_mul_div_left _ _ (by decide)]
  constructor
  · intro h c hc hc'
    have hi : start + pageSize * (c / pageSize - start / pageSize) < stop := by
      rw [Reaches, pageSize] at h
      rw [pageSize]
      omega
    refine ⟨c / pageSize - start / pageSize, lt_turns_iff.mpr hi, (hpage hi hc').mpr ?_⟩
    have hdiv : start / pageSize ≤ c / pageSize := Nat.div_le_div_right hc
    omega
  · intro h
    by_cases heq : start = stop
    · exact Or.inl heq
    · right
      obtain ⟨i, hi, hsame⟩ := h (stop - 1) (by omega) (by omega)
      rw [lt_turns_iff] at hi
      rw [hpage hi (by omega)] at hsame
      rw [pageSize] at hi hsame ⊢
      omega

section Cover

variable {b m r a start stop flags : Nat} {own : Nat → Prop} {fs used fs' : List Nat}
  {grow : Nat → Nat} {k k' : Kernel}

/-- A page has a frame of the call just when the steps go through it, and otherwise stays as it
is. -/
theorem Paged.page_iff (h : Paged b r start stop used (some a) k k')
    (hready : Ready b own (used ++ fs') k) (hready' : Ready b own fs' k') (hroot : k.Root r) {c : Nat}
    (hc : c < userspaceTop) :
  ((∃ f ∈ used, lookup (words k'.machine.mem) r c = addFlags (frame f) userFlags)
      ↔ Stepped start stop c)
    ∧ (lookup (words k'.machine.mem) r c = lookup (words k.machine.mem) r c ↔ ¬ Stepped start stop c)
  := by
  have huser := (user_ne_kernel hc).1
  -- no frame of the call was mapped before
  have hnew : ∀ f ∈ used, lookup (words k.machine.mem) r c ≠ addFlags (frame f) userFlags := by
    intro f hf heq
    obtain ⟨-, -, hfree⟩ := hready.sound.unused f (List.mem_append_left _ hf)
    apply hfree
    refine ⟨r, c, hroot, huser, ?_, ?_⟩
    · rw [heq]
      exact (userFlags_entry f).1
    · rw [heq, (userFlags_entry f).2]
  have hsame : ¬ Stepped start stop c →
      lookup (words k'.machine.mem) r c = lookup (words k.machine.mem) r c :=
    fun hnot => h.user hready hready' (Or.inr hroot) huser fun hand => hnot hand.2
  have hpage : Stepped start stop c →
      ∃ f ∈ used, lookup (words k'.machine.mem) r c = addFlags (frame f) userFlags :=
    fun hstep => h.page (Option.some_ne_none _) hstep
  refine ⟨⟨?_, hpage⟩, ?_, hsame⟩
  · rintro ⟨f, hf, heq⟩
    by_contra hnot
    rw [hsame hnot] at heq
    exact hnew f hf heq
  · intro heq hstep
    obtain ⟨f, hf, hentry⟩ := hpage hstep
    rw [heq] at hentry
    exact hnew f hf hentry

/-- `procmm_map` maps all addresses of the range to frames it takes off the free stack, and keeps
the pages of the areas `xs`, just when the steps from the start reach the last page of the range and
go through no page of these areas. -/
theorem procmmMap_covers_iff {xs : List Nat} (h : Ready b own fs k) (hlive : k.live m = true)
    (hP4 : (k.map m).P4 = frame r) (hle : start ≤ stop) (hstop : stop ≤ userspaceTop)
    (hxs : ∀ o ∈ xs, (k.area o).stop ≤ userspaceTop)
    (hcall : procmmMap (frame b) grow k m start stop flags = some (some a, k')) :
  ∃ used fs', fs = used ++ fs' ∧ Stacked fs' k'.machine
    ∧ (((∀ c, start ≤ c → c < stop → ∃ f ∈ used,
          lookup (words k'.machine.mem) r c = addFlags (frame f) userFlags)
        ∧ ∀ o ∈ xs, ∀ c, (k.area o).start ≤ c → c < (k.area o).stop →
          lookup (words k'.machine.mem) r c = lookup (words k.machine.mem) r c)
      ↔ Reaches start stop
        ∧ ∀ o ∈ xs, ∀ c, (k.area o).start ≤ c → c < (k.area o).stop → ¬ Stepped start stop c)
  := by
  obtain ⟨used, fs', rfl, hready, -, hpaged⟩ := h.procmmMap_call hlive hP4 hstop hcall
  have hroot : k.Root r := ⟨m, hlive, hP4⟩
  refine ⟨used, fs', rfl, hready.sound.stack, ?_⟩
  rw [reaches_iff hle hstop]
  apply and_congr
  · apply forall_congr'
    intro c
    apply imp_congr_right
    intro _
    apply imp_congr_right
    intro hc
    exact (hpaged.page_iff h hready hroot (Nat.lt_of_lt_of_le hc hstop)).1
  · apply forall_congr'
    intro o
    apply imp_congr_right
    intro ho
    apply forall_congr'
    intro c
    apply imp_congr_right
    intro _
    apply imp_congr_right
    intro hc
    exact (hpaged.page_iff h hready hroot (Nat.lt_of_lt_of_le hc (hxs o ho))).2

end Cover

/-! ### A process with one page -/

/-- A first process with one page, and ten free frames. -/
theorem exists_page :
  ∃ k fs, OnePage (fun _ _ => 0) 32 33 (List.range' 34 10) fs k ∧ 7 ≤ fs.length
  := by
  have hfs : Spare (32 :: 33 :: List.range' 34 10) := by
    refine ⟨by decide, ?_⟩
    intro f hf
    have hle : 32 ≤ f ∧ f < 44 := by
      rw [List.mem_cons, List.mem_cons, List.mem_range'_1] at hf
      omega
    omega
  obtain ⟨k, fs, h⟩ := @exists_onePage 32 (List.range' 34 10) (fun _ _ => 0) 33 (fun _ _ => by decide)
    (by decide) hfs (by decide)
  obtain ⟨new, hnew, hlen⟩ := h.frames
  refine ⟨k, fs, h, ?_⟩
  have hall := congrArg List.length hnew
  rw [List.length_append, List.length_range'] at hall
  omega

/-- `procmm_map` returns an area for a range above the page. -/
theorem OnePage.exists_procmmMap {f g : Nat} {fs fs' : List Nat} {data : Words} {k : Kernel}
    (h : OnePage data f g fs fs' k) (start stop : Nat) (hbelow : 0x2000 < start) (hle : start ≤ stop)
    (hstop : stop ≤ userspaceTop) (hlen : 4 * turns start stop ≤ fs'.length) :
  ∃ k', procmmMap (frame 16) (fun _ => 0) k 0 start stop 0 = some (some 1, k')
  := by
  have hdemand : k.demand (fun _ => 0) = 0 := rfl
  have hbelow' : ∀ o ∈ [0], Below k.area start o := by
    intro o ho
    rw [List.mem_singleton.mp ho, Below, h.area]
    exact hbelow
  obtain ⟨a, k', -, -, -, -, hcall, -, -⟩ := h.ready.exists_procmmMap h.list h.live h.P4 hle hbelow'
    hstop (by rw [hdemand, h.heap]; decide) (by rw [hdemand]; omega) 0
  obtain ⟨-, -, -, -, rfl, -⟩ := h.ready.procmmMap_above h.list h.live h.P4 hle hbelow' hstop hcall
  rw [h.areas] at hcall
  exact ⟨k', hcall⟩

/-- A page above the first one is mapped, and the first one is kept. -/
theorem procmmMap_covers_iff_page :
  ∃ k k', procmmMap (frame 16) (fun _ => 0) k 0 0x3000 0x4000 0 = some (some 1, k')
    ∧ (∀ c, 0x3000 ≤ c → c < 0x4000 → lookup (words k'.machine.mem) 32 c ≠ 0)
    ∧ ∀ c, 0x1000 ≤ c → c < 0x2000 →
      lookup (words k'.machine.mem) 32 c = lookup (words k.machine.mem) 32 c
  := by
  obtain ⟨k, fs, h, hlen⟩ := exists_page
  have hturns : turns 0x3000 0x4000 = 1 := rfl
  obtain ⟨k', hcall⟩ := h.exists_procmmMap 0x3000 0x4000 (by decide) (by decide) (by decide)
    (by rw [hturns]; exact Nat.le_trans (by decide) hlen)
  have hxs : ∀ o ∈ [0], (k.area o).stop ≤ userspaceTop := by
    intro o ho
    rw [List.mem_singleton.mp ho, h.area]
    decide
  obtain ⟨used, fs', -, -, hiff⟩ :=
    procmmMap_covers_iff h.ready h.live h.P4 (by decide) (by decide) hxs hcall
  have hapart : ∀ o ∈ [0], ∀ c, (k.area o).start ≤ c → c < (k.area o).stop →
      ¬ Stepped 0x3000 0x4000 c := by
    intro o ho c _ hc
    rw [List.mem_singleton.mp ho, h.area] at hc
    dsimp only at hc
    rw [stepped_iff (by decide) (by decide) (by rw [userspaceTop]; omega)]
    omega
  obtain ⟨hpages, hkeep⟩ := hiff.mpr ⟨by decide, hapart⟩
  refine ⟨k, k', hcall, ?_, ?_⟩
  · intro c hc hc'
    obtain ⟨f, -, heq⟩ := hpages c hc hc'
    rw [heq]
    exact (userFlags_entry f).1
  · intro c hc hc'
    apply hkeep 0 List.mem_cons_self
    · rw [h.area]
      exact hc
    · rw [h.area]
      exact hc'

/-- The last page of the range from `0x2800` to `0x3800` is not mapped to a free frame. -/
theorem procmmMap_misses_page :
  ∃ k fs k', Stacked fs k.machine
    ∧ procmmMap (frame 16) (fun _ => 0) k 0 0x2800 0x3800 0 = some (some 1, k')
    ∧ lookup (words k'.machine.mem) 32 0x3000 = lookup (words k.machine.mem) 32 0x3000
    ∧ ¬ ∀ c, 0x2800 ≤ c → c < 0x3800 →
      ∃ f ∈ fs, lookup (words k'.machine.mem) 32 c = addFlags (frame f) userFlags
  := by
  obtain ⟨k, fs, h, hlen⟩ := exists_page
  have hturns : turns 0x2800 0x3800 = 1 := rfl
  obtain ⟨k', hcall⟩ := h.exists_procmmMap 0x2800 0x3800 (by decide) (by decide) (by decide)
    (by rw [hturns]; exact Nat.le_trans (by decide) hlen)
  obtain ⟨used, fs', rfl, hready, -, hpaged⟩ :=
    h.ready.procmmMap_call h.live h.P4 (by decide) hcall
  have hroot : k.Root 32 := ⟨0, h.live, h.P4⟩
  have hnot : ¬ Stepped 0x2800 0x3800 0x3000 := by
    intro hstep
    obtain ⟨i, hi, hpage⟩ := hstep
    obtain rfl : i = 0 := by
      rw [hturns] at hi
      omega
    rw [samePage_iff (by decide) (by decide)] at hpage
    exact absurd hpage (by decide)
  have hsame : lookup (words k'.machine.mem) 32 0x3000 = lookup (words k.machine.mem) 32 0x3000 :=
    hpaged.user h.ready hready (Or.inr hroot) (by decide) fun hand => hnot hand.2
  refine ⟨k, used ++ fs', k', h.ready.sound.stack, hcall, hsame, ?_⟩
  intro hall
  obtain ⟨f, hf, heq⟩ := hall 0x3000 (by decide) (by decide)
  rw [hsame] at heq
  obtain ⟨-, -, hfree⟩ := h.ready.sound.unused f hf
  apply hfree
  refine ⟨32, 0x3000, hroot, by decide, ?_, ?_⟩
  · rw [heq]
    exact (userFlags_entry f).1
  · rw [heq, (userFlags_entry f).2]

end Procmm
