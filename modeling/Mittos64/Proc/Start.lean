import Mittos64.Mem.KernelRun
import Mittos64.Proc.Space

/-!
# A kernel without processes

The kernel after boot, with the boot tables from the frame 16 on, some free frames, and no map.
Concrete processes are made from it by calls of `procmm_new_map` and `procmm_map`.
-/

open DList

namespace Procmm

open Mem

/-- The boot tables, and the words `data` in the other frames. -/
def startWords (data : Words) : Words := fun n i =>
  if 16 ≤ n ∧ n ≤ 18 then bootWords 16 n i else data n i

/-- The machine after boot and calls of `pmm_free` for the frames `fs`, the first one last. -/
def startMachine (data : Words) : List Nat → Machine
  | [] =>
      { mem := ofWords (startWords data)
        pmmRunning := true
        pmmPos := 0
        pmmStack := 0
        taken := []
        freed := [] }
  | f :: fs => pmmFree (startMachine data fs) (frame f)

/-- The kernel after boot, with the free frames `fs`. -/
def startKernel (data : Words) (fs : List Nat) : Kernel where
  machine := startMachine data fs
  heapBrk := kernelHeapS
  area := fun _ => ⟨0, 0, 0, 0⟩
  link := fun _ => nil
  map := fun _ => ⟨0, nil, none, none⟩
  live := fun _ => false
  areas := 0
  maps := 0

/-- The frames are behind the kernel or before it, and in the physical memory. -/
def Spare (fs : List Nat) : Prop :=
  fs.Nodup ∧ ∀ f ∈ fs, f < 2 ^ 27 ∧ ¬ (16 ≤ f ∧ f ≤ 18)

section Start

variable {data : Words} {fs : List Nat}

theorem stacked_start (hfs : Spare fs) :
  Stacked fs (startMachine data fs)
  := by
  induction fs with
  | nil => exact ⟨rfl, rfl⟩
  | cons f fs ih =>
      obtain ⟨hnodup, hlt⟩ := hfs
      rw [List.forall_mem_cons] at hlt
      obtain ⟨hnot, hnodup⟩ := List.nodup_cons.mp hnodup
      have hframe : frame f < 2 ^ 39 := by
        rw [frame, pageSize]
        omega
      have hp2v := p2v_ne_zero hframe
      have hfree := (ih ⟨hnodup, hlt.2⟩).free hp2v.2 (by rw [stripFlags_frame]; exact hp2v.1)
        (by rw [frame_div]; exact hnot)
      rw [frame_div] at hfree
      exact hfree

/-- The words of the machine: those of the free frames but for the first one are as before. -/
theorem words_start (hdata : ∀ n i, data n i < 2 ^ 64) (hfs : Spare fs) {n : Nat} {i : Fin 512}
    (hn : n ∉ fs ∨ i ≠ 0) :
  words (startMachine data fs).mem n i = startWords data n i
  := by
  induction fs with
  | nil =>
      apply words_ofWords
      rw [startWords]
      split_ifs
      · exact bootWords_lt n i
      · exact hdata n i
  | cons f fs ih =>
      obtain ⟨hnodup, hlt⟩ := hfs
      rw [List.forall_mem_cons] at hlt
      have hframe : frame f < 2 ^ 39 := by
        rw [frame, pageSize]
        omega
      have hn' : n ∉ fs ∨ i ≠ 0 := hn.imp_left fun hn hmem => hn (List.mem_cons_of_mem f hmem)
      rw [startMachine, words_pmmFree_of_ne (p2v_ne_zero hframe).2,
        ih ⟨(List.nodup_cons.mp hnodup).2, hlt.2⟩ hn']
      rw [frame_div]
      apply hn.imp_left
      rintro hn rfl
      exact hn List.mem_cons_self

theorem bootTables_start (hdata : ∀ n i, data n i < 2 ^ 64) (hfs : Spare fs) :
  BootTables 16 (words (startMachine data fs).mem)
  := by
  have hboot := bootTables_bootWords 16
  have hwords : ∀ n, 16 ≤ n → n ≤ 18 → ∀ i,
      words (startMachine data fs).mem n i = bootWords 16 n i := by
    intro n hn hn' i
    rw [words_start hdata hfs, startWords, if_pos ⟨hn, hn'⟩]
    left
    exact fun hmem => (hfs.2 n hmem).2 ⟨hn, hn'⟩
  constructor
  · intro i
    rw [hwords 16 (by decide) (by decide), hboot.p4]
  · intro i
    rw [hwords (16 + 1) (by decide) (by decide), hboot.p3]
  · intro i
    rw [hwords (16 + 2) (by decide) (by decide), hboot.p2]

/-- The kernel after boot is ready. -/
theorem ready_start (hdata : ∀ n i, data n i < 2 ^ 64) (hfs : Spare fs) :
  Ready 16 (fun _ => False) fs (startKernel data fs)
  := by
  have hroot : (startKernel data fs).Root = fun _ => False := by
    funext r
    apply propext
    constructor
    · rintro ⟨m, hlive, -⟩
      cases hlive
    · exact False.elim
  have htables := bootTables_start hdata hfs
  have hheap : kernelHeapS ≤ kernelHeapS ∧ kernelHeapS % pageSize = 0 ∧ kernelHeapS ≤ 2 ^ 64 := by
    decide
  refine ⟨?_, hheap, nofun, nofun⟩
  rw [hroot]
  refine ⟨htables.kernelHalf (by decide), htables.present, stacked_start hfs, hfs.1, ?_, nofun, id, id⟩
  intro f hf
  obtain ⟨hlt, hnot⟩ := hfs.2 f hf
  refine ⟨?_, ?_, ?_⟩
  · rw [frame, pageSize]
    omega
  · rintro ⟨r, p, ⟨hr, -⟩, hwalk⟩
    obtain rfl := hr.resolve_right id
    obtain ⟨-, rfl⟩ | ⟨-, rfl⟩ | ⟨-, rfl⟩ := htables.walk_eq hwalk
    · exact hnot ⟨by decide, by decide⟩
    · exact hnot ⟨by decide, by decide⟩
    · exact hnot ⟨by decide, by decide⟩
  · rintro ⟨r, a, hr, -⟩
    exact hr

end Start

/-! ### A process -/

section Process

variable {b : Nat} {own : Nat → Prop} {f : Nat} {fs : List Nat} {k k' : Kernel}

/-- The page of an area of one page is in the first free frame, when the heap does not grow. -/
theorem Ready.first_frame {m r a start stop flags : Nat} (h : Ready b own (f :: fs) k)
    (hlive : k.live m = true) (hP4 : (k.map m).P4 = frame r) (hlt : start < stop)
    (hone : stop ≤ start + pageSize) (hstop : stop ≤ userspaceTop)
    (hcall : Procmm.procmmMap (frame b) (fun _ => 0) k m start stop flags = some (some a, k')) :
  lookup (words k'.machine.mem) r start = addFlags (frame f) userFlags
  := by
  have hroot : k.Root r := ⟨m, hlive, hP4⟩
  have hr : r ≠ 0 := by
    rintro rfl
    exact h.sound.nonzero hroot
  have hturns : turns start stop = 1 := by
    rw [pageSize] at hone
    rw [turns, pageSize]
    omega
  have hinc : incptr start pageSize = start + pageSize := by
    apply incptr_of_lt
    rw [userspaceTop] at hstop
    rw [pageSize]
    omega
  obtain ⟨k₁, head, link, hcalloc, ⟨-, hnone, -⟩ | ⟨s, -, hpages, -, rfl⟩⟩ := procmmMap_cases hcall
  · cases hnone
  · obtain rfl : k = k₁ := Option.some.inj hcalloc
    rw [hturns, hP4, mapPages, if_pos hlt] at hpages
    obtain ⟨s₁, f', new, fs', heq, hmap, -, -, -, -, hlookup⟩ | ⟨-, hnone⟩ :=
      h.sound.mapPage (Or.inr hroot) (resolveP4_frame hr)
        (user_ne_kernel (Nat.lt_of_lt_of_le hlt hstop)).2 userFlags
    · obtain ⟨rfl, -⟩ := List.cons.inj heq
      rw [hmap] at hpages
      dsimp only at hpages
      rw [hinc, mapPages, if_neg (Nat.not_lt.mpr hone)] at hpages
      obtain rfl := Option.some.inj hpages
      rw [Kernel.withMachine_machine, hlookup r start (Or.inr hroot), setLookup,
        if_pos ⟨⟨rfl, rfl⟩, Or.inl rfl⟩]
    · rw [hnone] at hpages
      cases hpages

/-- A first process with an empty memory. -/
theorem exists_process {data : Words} (hdata : ∀ n i, data n i < 2 ^ 64) (hf : f ≠ 0)
    (hfs : Spare (f :: fs)) :
  ∃ k, procmmNewMap (frame 16) (fun _ => 0) (startKernel data (f :: fs)) none = some (0, k)
    ∧ Ready 16 (withRoot f fun _ => False) fs k ∧ NewMap 16 (startKernel data (f :: fs)) f k
    ∧ k.heapBrk = kernelHeapS
  := by
  have hdemand : (startKernel data (f :: fs)).demand (fun _ => 0) = 0 := rfl
  have hroom : (startKernel data (f :: fs)).heapBrk
      + pageSize * (startKernel data (f :: fs)).demand (fun _ => 0) ≤ 2 ^ 64 := by
    have hheap : (startKernel data (f :: fs)).heapBrk = kernelHeapS := rfl
    rw [hdemand, hheap]
    decide
  have hzero : 0 ∉ (f :: fs).take (4 * (startKernel data (f :: fs)).demand (fun _ => 0) + (1 + 0)) := by
    intro hmem
    exact hf (List.mem_singleton.mp hmem).symm
  obtain ⟨k, f', used, fs', heq, hused, -, -, hcall, -, hready, hnew, hbrk⟩ :=
    (ready_start hdata hfs).procmmNewMap hroom (Nat.le_add_left 1 fs.length) hzero
  obtain rfl := List.eq_nil_of_length_eq_zero (Nat.le_zero.mp hused)
  obtain ⟨rfl, rfl⟩ := List.cons.inj heq
  exact ⟨k, hcall, hready, hnew, hbrk⟩

/-- A first process with the P4 `f` and one area of one page, which is in the frame `g`. -/
structure OnePage (data : Words) (f g : Nat) (fs fs' : List Nat) (k : Kernel) : Prop where
  ready : Ready 16 (withRoot f fun _ => False) fs' k
  frames : ∃ new, fs = new ++ fs' ∧ new.length ≤ 3
  live : k.live 0 = true
  P4 : (k.map 0).P4 = frame f
  pointers : (k.map 0).brk = none ∧ (k.map 0).stack = none
  list : AreaList k 0 [0]
  area : k.area 0 = ⟨0x1000, 0x2000, 0, 0⟩
  page : ∀ c, 0x1000 ≤ c → c < 0x2000 →
    lookup (words k.machine.mem) f c = addFlags (frame g) userFlags
  words_eq : ∀ n, ¬ IsTable 16 k.Root k.machine n →
    words k.machine.mem n = words (startMachine data (f :: g :: fs)).mem n
  heap : k.heapBrk = kernelHeapS
  areas : k.areas = 1
  maps : k.maps = 1

theorem exists_onePage {data : Words} {g : Nat} (hdata : ∀ n i, data n i < 2 ^ 64) (hf : f ≠ 0)
    (hfs : Spare (f :: g :: fs)) (hlen : 3 ≤ fs.length) :
  ∃ k fs', OnePage data f g fs fs' k
  := by
  obtain ⟨k₁, -, hready₁, hnew, hheap₁⟩ := exists_process hdata hf hfs
  have hmap : k₁.map 0 = ⟨frame f, nil, none, none⟩ := hnew.map_new
  have hlive : k₁.live 0 = true := by
    rw [hnew.live]
    rfl
  have hP4 : (k₁.map 0).P4 = frame f := by
    rw [hmap]
  have hlist : AreaList k₁ 0 [] := by
    refine ⟨?_, nofun, nofun, List.Pairwise.nil⟩
    rw [hmap]
    exact Represents.empty
  have hfits : Fits k₁.area [] 0x1000 0x2000 := ⟨by decide, Or.inr nofun⟩
  have hdemand : k₁.demand (fun _ => 0) = 0 := rfl
  have hroom : k₁.heapBrk + pageSize * k₁.demand (fun _ => 0) ≤ 2 ^ 64 := by
    rw [hheap₁, hdemand]
    decide
  have hturns : turns 0x1000 0x2000 = 1 := rfl
  obtain ⟨a, k, used, fs', heq, hused, hcall, hready, hkeeps, hpaged, hheap, hnone⟩ | ⟨hlt, -⟩ :=
    hready₁.procmmMap hlist hlive hP4 hfits (by decide) hroom 0
  · obtain ⟨hlist', -, harea, hareas, -, -⟩ := hlist.procmmMap hfits hcall
    have hzero : k₁.areas = 0 := hnew.areas
    cases a with
    | none =>
        obtain ⟨o, ho, -⟩ := hnone.mp rfl
        nomatch ho
    | some a =>
        obtain ⟨rfl, harea⟩ := harea a rfl
        rw [hzero] at harea hlist' hareas
        have hfirst := hready₁.first_frame hlive hP4 (by decide) (by decide) (by decide) hcall
        refine ⟨k, fs', hready, ?_, ?_, ?_, ?_, hlist', harea, ?_, ?_, ?_, hareas, ?_⟩
        · cases used with
          | nil =>
              -- the page needs a frame
              have hstep : Stepped 0x1000 0x2000 0x1000 := ⟨0, by decide, rfl, rfl⟩
              obtain ⟨f', hf', -⟩ := hpaged.page (Option.some_ne_none _) hstep
              nomatch hf'
          | cons g' new =>
              obtain ⟨rfl, rfl⟩ := List.cons.inj heq
              rw [hdemand, hturns, List.length_cons] at hused
              exact ⟨new, rfl, by omega⟩
        · rw [hkeeps.live]
          exact hlive
        · rw [hkeeps.P4]
          exact hP4
        · obtain ⟨k₂, head, link, hcalloc, ⟨-, hnone', -⟩ | ⟨s, -, -, -, rfl⟩⟩ :=
            procmmMap_cases hcall
          · nomatch hnone'
          · obtain ⟨-, -, hmap₂, -⟩ := kcalloc_fields hcalloc
            rw [Kernel.withMachine_map, Kernel.withLists_map, Function.update_self,
              Kernel.addArea_map, hmap₂, hmap]
            exact ⟨rfl, rfl⟩
        · intro c hc hc'
          rw [← hfirst]
          apply lookup_of_div_eq
          rw [pageSize]
          omega
        · intro n hn
          have hn₁ : ¬ IsTable 16 k₁.Root k₁.machine n := by
            intro htable
            apply hn
            rw [hkeeps.root]
            exact hkeeps.grows.mono htable
          rw [hkeeps.root] at hn
          rw [hkeeps.grows.words_eq hn, hnew.words_eq hn₁]
          rfl
        · rw [hheap, hdemand, hheap₁, Nat.mul_zero, Nat.add_zero]
        · rw [hkeeps.maps]
          exact hnew.maps
  · rw [hdemand, hturns, List.length_cons] at hlt
    omega

/-- The first byte of a word. -/
theorem byte_of_words (m : Memory) (n : Nat) (i : Fin 512) :
  (m (frame n + 8 * i)).toNat = words m n i % 256
  := by
  have hlt := (m (frame n + 8 * i)).toNat_lt
  rw [words, Memory.load]
  omega

/-- The bytes of a page in a frame that has had the same words since the start. -/
theorem byteAt_start {data : Words} {r a n : Nat} {i : Fin 512} {s : Machine} {gs : List Nat}
    (hdata : ∀ n i, data n i < 2 ^ 64) (hgs : Spare gs) (hn : n ∈ gs) (hi : i ≠ 0)
    (hwords : words s.mem n = words (startMachine data gs).mem n)
    (hpage : lookup (words s.mem) r a = addFlags (frame n) userFlags)
    (ha : a % pageSize = 8 * i) :
  (byteAt s r a).toNat = data n i % 256
  := by
  rw [byteAt, place, hpage, (userFlags_entry n).2, ha, byte_of_words, hwords,
    words_start hdata hgs (Or.inr hi), startWords, if_neg (hgs.2 n hn).2]

/-- A first process with the P4 `f` and an empty memory, and a first page of the heap in the frame
`g`. -/
structure HeapPage (data : Words) (f g : Nat) (fs fs' : List Nat) (k : Kernel) : Prop where
  ready : Ready 16 (withRoot f fun _ => False) fs' k
  frames : ∃ new, fs = new ++ fs' ∧ new.length ≤ 3
  live : k.live 0 = true
  map : k.map 0 = ⟨frame f, nil, none, none⟩
  roots : ∀ q, k.Root q → q = f
  empty : ∀ c, p4Offset c ≠ 511 → lookup (words k.machine.mem) f c = 0
  page : ∀ i < pageSize, lookup (words k.machine.mem) 16 (kernelHeapS + i)
    = addFlags (frame g) (pagePresent ||| pageWrite)
  notTable : ¬ IsTable 16 k.Root k.machine g
  words_eq : words k.machine.mem g = words (startMachine data (f :: g :: fs)).mem g
  heap : k.heapBrk = kernelHeapS + pageSize
  areas : k.areas = 0
  maps : k.maps = 1

theorem exists_heapPage {data : Words} {g : Nat} (hdata : ∀ n i, data n i < 2 ^ 64) (hf : f ≠ 0)
    (hfs : Spare (f :: g :: fs)) (hlen : 3 ≤ fs.length) :
  ∃ k fs', HeapPage data f g fs fs' k
  := by
  obtain ⟨k₁, -, hready₁, hnew, hheap₁⟩ := exists_process hdata hf hfs
  have hrootf : k₁.Root f := by
    refine ⟨0, ?_, ?_⟩
    · rw [hnew.live]
      rfl
    · exact congrArg Map.P4 hnew.map_new
  have hroots : ∀ q, k₁.Root q → q = f := by
    rintro q ⟨m, hlive, hP4⟩
    rw [hnew.live] at hlive
    by_cases hm : m = 0
    · rw [hm] at hP4
      exact frame_inj (hP4.symm.trans (congrArg Map.P4 hnew.map_new))
    · have hm' : m ≠ (startKernel data (f :: g :: fs)).maps := hm
      rw [Function.update_of_ne hm'] at hlive
      nomatch hlive
  have hhuge : ¬ UnderHuge kernelHeapS := by decide
  have hkernel : p4Offset kernelHeapS = 511 := by decide
  obtain ⟨s, g', new, fs', heq, hmap, hlen', hsound, hgrows, hnot, hlookup⟩ | ⟨hlt, -⟩ :=
    @Sound.mapPage 16 16 kernelHeapS 0 _ _ _ _ hready₁.sound (Or.inl rfl) rfl hhuge
      (pagePresent ||| pageWrite)
  · obtain ⟨rfl, rfl⟩ := List.cons.inj heq
    refine ⟨{ k₁ with machine := s, heapBrk := kernelHeapS + pageSize }, fs', ?_, ⟨new, rfl, hlen'⟩,
      ?_, hnew.map_new, hroots, ?_, ?_, hnot, ?_, rfl, hnew.areas, hnew.maps⟩
    · apply hready₁.of_sound _ _ _ _ hsound
      · rfl
      · rfl
      · exact fun _ => rfl
      · dsimp only
        decide
    · exact congrFun hnew.live 0
    · intro c hc
      rw [hlookup f c (Or.inr hrootf), setLookup, if_neg]
      · exact hnew.empty hc
      · rintro ⟨⟨hpath, -⟩, -⟩
        apply hc
        rw [← hkernel]
        exact (List.cons.inj hpath).1
    · intro i hi
      have hdiv : (kernelHeapS + i) / pageSize = kernelHeapS / pageSize := by
        rw [pageSize] at hi
        rw [kernelHeapS, pageSize]
        omega
      rw [lookup_of_div_eq _ _ hdiv, hlookup 16 _ (Or.inl rfl), setLookup,
        if_pos ⟨⟨rfl, rfl⟩, Or.inl rfl⟩]
    · have hnot₁ : ¬ IsTable 16 k₁.Root k₁.machine g := mt hgrows.mono hnot
      rw [hgrows.words_eq hnot, hnew.words_eq hnot₁]
      rfl
  · rw [List.length_cons] at hlt
    omega

end Process

end Procmm
