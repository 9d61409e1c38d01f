import Mittos64.Proc.Frames
import Mittos64.Proc.Start

/-!
# Loading an executable

`load_elf` loads the segments of an image one after the other.  `procmm_map` refuses an area that
touches another one, maps pages in steps from the start of the area, and gives a page that two
areas share a new frame; `load_elf` does not look at what it returns.  So the segments are loaded
when they lie apart, share no page, and the steps from the start of each reach its last page.
-/

open DList

namespace Procmm

open Mem

/-! ### The program headers -/

/-- The program header number `i` of an image. -/
def pheadAt (mem : Memory) (data i : Nat) : PHead :=
  elfPHead mem (incptr (incptr data (elfHeader mem data).phOffset) (pheadSize * i))

/-- The program headers of the type `PT_LOAD` among the `n` headers from the number `i` on. -/
def segmentsFrom (mem : Memory) (data i n : Nat) : List PHead :=
  ((List.range' i n).map (pheadAt mem data)).filter fun p => p.type = elfPtLoad

/-- The program headers of the type `PT_LOAD` of an image. -/
def segments (mem : Memory) (data : Nat) : List PHead :=
  segmentsFrom mem data 0 (elfHeader mem data).phNum

/-- The header and the program headers lie in the image of `size` bytes. -/
structure Headers (mem : Memory) (data size : Nat) : Prop where
  header : 64 ≤ size
  table : (elfHeader mem data).phOffset + pheadSize * (elfHeader mem data).phNum ≤ size
  bound : data + size < 2 ^ 64

section Headers

variable {mem mem' : Memory} {data data' size : Nat}
  (hmem : ∀ i < size, mem' (data' + i) = mem (data + i))

include hmem

/-- A field of the image. -/
theorem load_image {i n : Nat} (h : i + n ≤ size) :
  mem'.load (data' + i) n = mem.load (data + i) n
  := by
  apply Memory.load_shift
  intro j hj
  rw [Nat.add_assoc, Nat.add_assoc]
  exact hmem (i + j) (by omega)

theorem elfHeader_congr (h : 64 ≤ size) :
  elfHeader mem' data' = elfHeader mem data
  := by
  have hread : mem'.read data' 4 = mem.read data 4 := by
    apply Memory.read_congr
    intro i hi
    exact hmem i (by omega)
  rw [elfHeader, elfHeader, hread, load_image hmem (by omega), load_image hmem (by omega),
    load_image hmem (by omega), load_image hmem (by omega)]

theorem pheadAt_congr {i : Nat} (h : Headers mem data size) (hbound' : data' + size < 2 ^ 64)
    (hi : i < (elfHeader mem data).phNum) :
  pheadAt mem' data' i = pheadAt mem data i
  := by
  have htable := h.table
  have hbound := h.bound
  have hlt : (elfHeader mem data).phOffset + pheadSize * i + pheadSize ≤ size := by
    have hle : pheadSize * (i + 1) ≤ pheadSize * (elfHeader mem data).phNum :=
      Nat.mul_le_mul_left _ hi
    rw [Nat.mul_succ] at hle
    omega
  have haddr : ∀ {d}, d + size < 2 ^ 64 →
      incptr (incptr d (elfHeader mem data).phOffset) (pheadSize * i)
        = d + ((elfHeader mem data).phOffset + pheadSize * i) := by
    intro d hd
    rw [incptr_of_lt, incptr_of_lt, Nat.add_assoc]
    · omega
    · rw [incptr_of_lt]
      · omega
      · omega
  have hfield : ∀ {j n}, j + n ≤ 56 →
      mem'.load (data' + ((elfHeader mem data).phOffset + pheadSize * i) + j) n
        = mem.load (data + ((elfHeader mem data).phOffset + pheadSize * i) + j) n := by
    intro j n hj
    rw [pheadSize] at hlt
    rw [Nat.add_assoc data', Nat.add_assoc data]
    apply load_image hmem
    rw [pheadSize]
    omega
  have hfirst := @hfield 0 4 (by decide)
  rw [Nat.add_zero, Nat.add_zero] at hfirst
  rw [pheadAt, pheadAt, elfHeader_congr hmem h.header, haddr hbound, haddr hbound', elfPHead,
    elfPHead, hfirst, hfield (by decide), hfield (by decide), hfield (by decide),
    hfield (by decide)]

theorem segments_congr (h : Headers mem data size) (hbound' : data' + size < 2 ^ 64) :
  segments mem' data' = segments mem data
  := by
  rw [segments, segments, elfHeader_congr hmem h.header, segmentsFrom, segmentsFrom]
  apply congrArg
  apply List.map_congr_left
  intro i hi
  rw [List.mem_range'_1] at hi
  exact pheadAt_congr hmem h hbound' (by omega)

end Headers

/-! ### The loop -/

section Loop

variable (bootP4 : Nat) (grow : Nat → Nat)

/-- `load_elf_segment` for some program headers. -/
def loadAll (m file : Nat) : Kernel → List PHead → Option Kernel
  | k, [] => some k
  | k, p :: ps =>
      match loadElfSegment bootP4 grow k m file p with
      | none => none
      | some k => loadAll m file k ps

variable {bootP4 : Nat} {grow : Nat → Nat} {m data size : Nat} {k₀ : Kernel}

/-- The loop of `load_elf` loads the segments, when the image does not change. -/
theorem loadSegments_eq {inv : Kernel → Prop}
    (hheaders : Headers (kernelMemory bootP4 k₀.machine) data size)
    (himage : ∀ k, inv k → ∀ i < size,
      kernelMemory bootP4 k.machine (data + i) = kernelMemory bootP4 k₀.machine (data + i))
    (hstep : ∀ k k', ∀ p ∈ segments (kernelMemory bootP4 k₀.machine) data, inv k →
      loadElfSegment bootP4 grow k m data p = some k' → inv k')
    {fuel i n : Nat} {k : Kernel} (hk : inv k)
    (hn : i + n = (elfHeader (kernelMemory bootP4 k₀.machine) data).phNum) (hfuel : n < fuel) :
  loadSegments bootP4 grow m data fuel k i
    = loadAll bootP4 grow m data k (segmentsFrom (kernelMemory bootP4 k₀.machine) data i n)
  := by
  induction fuel generalizing i n k with
  | zero => exact absurd hfuel (Nat.not_lt_zero n)
  | succ fuel ih =>
      have hsame := himage k hk
      rw [loadSegments]
      dsimp only
      rw [elfHeader_congr hsame hheaders.header]
      cases n with
      | zero =>
          rw [if_neg (by omega)]
          rfl
      | succ n =>
          have hi : i < (elfHeader (kernelMemory bootP4 k₀.machine) data).phNum := by omega
          have hphead := pheadAt_congr hsame hheaders hheaders.bound hi
          rw [pheadAt, elfHeader_congr hsame hheaders.header] at hphead
          rw [if_pos hi, hphead]
          have hrest : ∀ {k}, inv k → loadSegments bootP4 grow m data fuel k (i + 1)
              = loadAll bootP4 grow m data k
                (segmentsFrom (kernelMemory bootP4 k₀.machine) data (i + 1) n) :=
            fun hk => ih hk (by omega) (by omega)
          by_cases htype : (pheadAt (kernelMemory bootP4 k₀.machine) data i).type = elfPtLoad
          · have hmem : pheadAt (kernelMemory bootP4 k₀.machine) data i
                ∈ segments (kernelMemory bootP4 k₀.machine) data := by
              apply List.mem_filter.mpr
              refine ⟨List.mem_map_of_mem ?_, decide_eq_true htype⟩
              rw [List.mem_range'_1]
              omega
            have hcons : segmentsFrom (kernelMemory bootP4 k₀.machine) data i (n + 1)
                = pheadAt (kernelMemory bootP4 k₀.machine) data i
                  :: segmentsFrom (kernelMemory bootP4 k₀.machine) data (i + 1) n := by
              rw [segmentsFrom, List.range'_succ, List.map_cons]
              exact List.filter_cons_of_pos (decide_eq_true htype)
            rw [if_pos htype, hcons, loadAll]
            cases hload : loadElfSegment bootP4 grow k m data
                (pheadAt (kernelMemory bootP4 k₀.machine) data i) with
            | none => rfl
            | some k' => exact hrest (hstep k k' _ hmem hk hload)
          · have hskip : segmentsFrom (kernelMemory bootP4 k₀.machine) data i (n + 1)
                = segmentsFrom (kernelMemory bootP4 k₀.machine) data (i + 1) n := by
              rw [segmentsFrom, List.range'_succ, List.map_cons]
              exact List.filter_cons_of_neg (by simp [htype])
            rw [if_neg htype, hskip]
            exact hrest hk

end Loop

/-! ### What the loader leaves alone -/

/-- The sizes of the segment are in order, and it lies below `USERSPACE_TOP`. -/
def PHead.Loadable (p : PHead) : Prop :=
  p.fileSize ≤ p.memSize ∧ p.virtualAddress + p.memSize ≤ userspaceTop

section Spends

variable {b r m data size : Nat} {own : Nat → Prop} {fs : List Nat} {grow : Nat → Nat}
  {k k' : Kernel} {p : PHead}

/-- The parts of `load_elf_segment`. -/
theorem loadElfSegment_eq {bootP4 : Nat} (hp : p.Loadable) :
  loadElfSegment bootP4 grow k m data p
    = (procmmMap bootP4 grow k m p.virtualAddress (p.virtualAddress + p.memSize) 0).map fun x =>
        x.2.withMachine (vmmP4Memset bootP4
          (vmmP4Memcpy bootP4 x.2.machine (x.2.map m).P4 p.virtualAddress 0 (incptr data p.offset)
            p.fileSize).2
          (x.2.map m).P4 (p.virtualAddress + p.fileSize) 0 (p.memSize - p.fileSize)).2
  := by
  obtain ⟨hsize, htop⟩ := hp
  rw [userspaceTop] at htop
  have hstop : incptr p.virtualAddress p.memSize = p.virtualAddress + p.memSize :=
    incptr_of_lt (by omega)
  have hmiddle : incptr p.virtualAddress p.fileSize = p.virtualAddress + p.fileSize :=
    incptr_of_lt (by omega)
  have hsub : (p.memSize + 2 ^ 64 - p.fileSize) % 2 ^ 64 = p.memSize - p.fileSize := by
    omega
  rw [loadElfSegment]
  dsimp only
  rw [hstop, hmiddle, hsub]
  cases procmmMap bootP4 grow k m p.virtualAddress (p.virtualAddress + p.memSize) 0 with
  | none => rfl
  | some x => rfl

/-- The P4 of a live map as the argument of a call. -/
theorem Ready.resolveP4 (h : Ready b own fs k) (hroot : k.Root r) :
  resolveP4 (frame b) (frame r) = frame r
  := by
  apply resolveP4_frame
  rintro rfl
  exact h.sound.nonzero hroot

/-- The copying and the clearing of `load_elf_segment` write to the frames of the process. -/
theorem Ready.fill_touches (h : Ready b own fs k) (hlive : k.live m = true)
    (hP4 : (k.map m).P4 = frame r) (hp : p.Loadable) :
  ∃ mem, (vmmP4Memset (frame b) (vmmP4Memcpy (frame b) k.machine (k.map m).P4 p.virtualAddress 0
        (incptr data p.offset) p.fileSize).2 (k.map m).P4 (p.virtualAddress + p.fileSize) 0
        (p.memSize - p.fileSize)).2 = k.machine.withMem mem
    ∧ Touches (words k.machine.mem) r k.machine.mem mem
  := by
  have hroot : k.Root r := ⟨m, hlive, hP4⟩
  obtain ⟨hsize, htop⟩ := hp
  have hresolve := h.resolveP4 hroot
  obtain ⟨mem, hcopy, htouch⟩ := @Sound.memcpyLoop_touches b r (frame r) own k.Root fs 0 p.fileSize
    p.fileSize p.virtualAddress (incptr data p.offset) 0 k.machine h.sound hroot hresolve (by omega)
  obtain ⟨hready₁, -, hlookup₁⟩ := h.touched hroot htouch
  obtain ⟨mem', hset, htouch'⟩ := @Sound.memsetLoop_touches b r (frame r) own _ fs
    (p.memSize - p.fileSize) (p.memSize - p.fileSize) (p.virtualAddress + p.fileSize) 0 0 _
    hready₁.sound hroot hresolve (by omega)
  refine ⟨mem', ?_, htouch.trans (htouch'.congr fun c => (hlookup₁ r c (Or.inr hroot)).symm)⟩
  rw [hP4, vmmP4Memcpy, hcopy, vmmP4Memset]
  rw [Kernel.withMachine_machine] at hset
  exact hset

/-- The copying and the clearing of `load_elf_segment` change the frames of the process only. -/
theorem Ready.fill_spends (h : Ready b own fs k) (hlive : k.live m = true)
    (hP4 : (k.map m).P4 = frame r) (hp : p.Loadable) :
  ∃ s, (vmmP4Memset (frame b) (vmmP4Memcpy (frame b) k.machine (k.map m).P4 p.virtualAddress 0
        (incptr data p.offset) p.fileSize).2 (k.map m).P4 (p.virtualAddress + p.fileSize) 0
        (p.memSize - p.fileSize)).2 = s
    ∧ Ready b own fs (k.withMachine s) ∧ Spends b r [] k (k.withMachine s)
    ∧ ∀ c, lookup (words s.mem) r c = lookup (words k.machine.mem) r c
  := by
  have hroot : k.Root r := ⟨m, hlive, hP4⟩
  obtain ⟨mem, hfill, htouch⟩ := @Ready.fill_touches b r m data own fs k p h hlive hP4 hp
  obtain ⟨hready, hspends, hlookup⟩ := h.touched hroot htouch
  exact ⟨k.machine.withMem mem, hfill, hready, hspends, fun c => hlookup r c (Or.inr hroot)⟩

/-- `load_elf_segment` changes the frames of the process only. -/
theorem Ready.loadElfSegment_spends (h : Ready b own fs k) (hlive : k.live m = true)
    (hP4 : (k.map m).P4 = frame r) (hp : p.Loadable)
    (hcall : loadElfSegment (frame b) grow k m data p = some k') :
  ∃ used fs', fs = used ++ fs' ∧ Ready b own fs' k' ∧ Spends b r used k k'
    ∧ ∃ a k₁ s, Procmm.procmmMap (frame b) grow k m p.virtualAddress
        (p.virtualAddress + p.memSize) 0 = some (a, k₁) ∧ k' = k₁.withMachine s
        ∧ ∀ c, lookup (words s.mem) r c = lookup (words k₁.machine.mem) r c
  := by
  have hroot : k.Root r := ⟨m, hlive, hP4⟩
  rw [loadElfSegment_eq hp] at hcall
  obtain ⟨⟨a, k₁⟩, hmap, rfl⟩ := Option.map_eq_some_iff.mp hcall
  obtain ⟨used, fs', rfl, hready₁, hkeeps, hpaged⟩ := h.procmmMap_call hlive hP4 hp.2 hmap
  have hspends₁ := h.spends hready₁ hroot hp.2 hkeeps hpaged
  have hlive₁ : k₁.live m = true := by
    rw [hkeeps.live]
    exact hlive
  have hP4₁ : (k₁.map m).P4 = frame r := by
    rw [hkeeps.P4]
    exact hP4
  obtain ⟨s, hs, hready₂, hspends₂, hlookup⟩ := @Ready.fill_spends b r m data own fs' k₁ p hready₁
    hlive₁ hP4₁ hp
  dsimp only
  rw [hs]
  refine ⟨used, fs', rfl, hready₂, ?_, a, k₁, s, hmap, rfl, hlookup⟩
  have hall := hspends₁.trans hspends₂
  rw [List.append_nil] at hall
  exact hall

theorem Spends.refl :
  Spends b r [] k k
  := spends_of_machine rfl rfl rfl (fun _ => rfl) rfl

/-- Loading segments changes the frames of the process only. -/
theorem Ready.loadAll_spends {ps : List PHead} (h : Ready b own fs k) (hlive : k.live m = true)
    (hP4 : (k.map m).P4 = frame r) (hps : ∀ p ∈ ps, p.Loadable)
    (hcall : loadAll (frame b) grow m data k ps = some k') :
  ∃ used fs', fs = used ++ fs' ∧ Ready b own fs' k' ∧ Spends b r used k k'
  := by
  induction ps generalizing fs k with
  | nil =>
      obtain rfl := Option.some.inj hcall
      exact ⟨[], fs, rfl, h, Spends.refl⟩
  | cons p ps ih =>
      rw [List.forall_mem_cons] at hps
      rw [loadAll] at hcall
      split at hcall
      · nomatch hcall
      · rename_i k₁ hload
        obtain ⟨used, fs₁, rfl, hready₁, hspends₁, -⟩ :=
          h.loadElfSegment_spends hlive hP4 hps.1 hload
        obtain ⟨used', fs', rfl, hready, hspends⟩ := ih hready₁ (by rw [hspends₁.live]; exact hlive)
          (by rw [hspends₁.P4]; exact hP4) hps.2 hcall
        exact ⟨used ++ used', fs', by rw [List.append_assoc], hready, hspends₁.trans hspends⟩

/-- `load_elf` for an image with the magic number: it loads the segments. -/
theorem Ready.loadElf_eq (h : Ready b own fs k) (hlive : k.live m = true)
    (hP4 : (k.map m).P4 = frame r) (himage : Image b fs data size k)
    (hheaders : Headers (kernelMemory (frame b) k.machine) data size)
    (hps : ∀ p ∈ segments (kernelMemory (frame b) k.machine) data, p.Loadable)
    (hmagic : (elfHeader (kernelMemory (frame b) k.machine) data).identity = elfMagic)
    (htype : (elfHeader (kernelMemory (frame b) k.machine) data).type = elfTypeExecutable) :
  loadElf (frame b) grow k m data
    = (loadAll (frame b) grow m data k (segments (kernelMemory (frame b) k.machine) data)).map
        fun k' => ((elfHeader (kernelMemory (frame b) k.machine) data).entry, k')
  := by
  have hroot : k.Root r := ⟨m, hlive, hP4⟩
  have hnum : (elfHeader (kernelMemory (frame b) k.machine) data).phNum < 2 ^ 16 + 1 :=
    Nat.lt_succ_of_lt (Memory.load_lt _ _ 2)
  have hsame : ∀ k', (∃ used fs', fs = used ++ fs' ∧ Ready b own fs' k' ∧ Spends b r used k k') →
      ∀ i < size, kernelMemory (frame b) k'.machine (data + i)
        = kernelMemory (frame b) k.machine (data + i) := by
    rintro k' ⟨used, fs', rfl, hready, hspends⟩ i hi
    exact ((himage.spends h hready hroot hspends).2 i hi).1
  have hloop : loadSegments (frame b) grow m data (2 ^ 16 + 1) k 0
      = loadAll (frame b) grow m data k (segments (kernelMemory (frame b) k.machine) data) := by
    apply loadSegments_eq hheaders hsame _ ⟨[], fs, rfl, h, Spends.refl⟩ (Nat.zero_add _) hnum
    rintro k₁ k₂ p hp ⟨used, fs', rfl, hready, hspends⟩ hload
    obtain ⟨used', fs'', rfl, hready', hspends', -⟩ := hready.loadElfSegment_spends
      (by rw [hspends.live]; exact hlive) (by rw [hspends.P4]; exact hP4) (hps p hp) hload
    exact ⟨used ++ used', fs'', by rw [List.append_assoc], hready', hspends.trans hspends'⟩
  rw [loadElf, if_neg (fun hne => hne hmagic), if_neg (fun hne => hne htype), hloop]
  cases hall : loadAll (frame b) grow m data k (segments (kernelMemory (frame b) k.machine) data) with
  | none => rfl
  | some k' =>
      dsimp only
      rw [elfHeader_congr (hsame k' (h.loadAll_spends hlive hP4 hps hall)) hheaders.header,
        Option.map_some]

end Spends

/-! ### What the loader writes -/

/-- The address lies in the segment. -/
def PHead.Has (p : PHead) (c : Nat) : Prop :=
  p.virtualAddress ≤ c ∧ c < p.virtualAddress + p.memSize

instance (p : PHead) (c : Nat) : Decidable (p.Has c) :=
  inferInstanceAs (Decidable (_ ∧ _))

/-- The steps of a page from the start of the segment reach the page of its last byte. -/
def PHead.Reached (p : PHead) : Prop :=
  p.memSize = 0 ∨ p.virtualAddress % pageSize ≤ (p.virtualAddress + p.memSize - 1) % pageSize

/-- There is a gap between the segments, and no page belongs to both. -/
structure PHead.Apart (p q : PHead) : Prop where
  gap : p.virtualAddress + p.memSize < q.virtualAddress
    ∨ q.virtualAddress + q.memSize < p.virtualAddress
  pages : ∀ c c', p.Has c → q.Has c' → c / pageSize ≠ c' / pageSize

/-- `vmm_get_page` reports the frames in which the processor finds the image, and none of them is
the frame 0. -/
def Readable (b data size : Nat) (k : Kernel) : Prop :=
  ∀ i < size, ¬ UnderHuge (data + i)
    ∧ lookup (words k.machine.mem) b (data + i) / pageSize ≠ 0
    ∧ translate (words k.machine.mem) b (data + i)
      = some (lookup (words k.machine.mem) b (data + i) / pageSize)

/-- The bytes of the segment are those of the image, and zeros behind them. -/
structure Loaded (b r data : Nat) (k₀ : Kernel) (p : PHead) (k : Kernel) : Prop where
  mapped : ∀ i < p.memSize, lookup (words k.machine.mem) r (p.virtualAddress + i) / pageSize ≠ 0
  file : ∀ i < p.fileSize, byteAt k.machine r (p.virtualAddress + i)
    = kernelMemory (frame b) k₀.machine (data + p.offset + i)
  zero : ∀ i, p.fileSize ≤ i → i < p.memSize → byteAt k.machine r (p.virtualAddress + i) = 0

section Segment

variable {b r data : Nat} {own : Nat → Prop} {fs : List Nat} {k₀ k k' : Kernel} {p : PHead}

/-- The pages that the steps go through are pages of the segment. -/
theorem Stepped.exists {start stop c : Nat} (h : Stepped start stop c) (hstop : stop ≤ userspaceTop)
    (hc : c < userspaceTop) :
  ∃ x, start ≤ x ∧ x < stop ∧ c / pageSize = x / pageSize
  := by
  obtain ⟨i, hi, hpage⟩ := h
  rw [lt_turns_iff] at hi
  rw [userspaceTop] at hstop hc
  rw [samePage_iff (by omega) (by omega)] at hpage
  exact ⟨start + pageSize * i, Nat.le_add_right _ _, hi, hpage⟩

/-- The steps go through all pages of the segment. -/
theorem PHead.Reached.stepped (h : p.Reached) (hp : p.Loadable) {c : Nat} (hc : p.Has c) :
  Stepped p.virtualAddress (p.virtualAddress + p.memSize) c
  := by
  obtain ⟨hle, hlt⟩ := hc
  have htop := hp.2
  rw [userspaceTop] at htop
  have hreach : p.virtualAddress + pageSize * (c / pageSize - p.virtualAddress / pageSize)
      < p.virtualAddress + p.memSize := by
    rw [PHead.Reached, pageSize] at h
    rw [pageSize]
    omega
  refine ⟨c / pageSize - p.virtualAddress / pageSize, lt_turns_iff.mpr hreach, ?_⟩
  rw [samePage_iff (by omega) (by omega), Nat.add_mul_div_left _ _ (by decide)]
  have hdiv : p.virtualAddress / pageSize ≤ c / pageSize := Nat.div_le_div_right hle
  omega

/-- A segment stays as it is when its pages and their bytes do. -/
theorem Loaded.congr (h : Loaded b r data k₀ p k) (hp : p.fileSize ≤ p.memSize)
    (hsame : ∀ i < p.memSize,
      lookup (words k'.machine.mem) r (p.virtualAddress + i)
          = lookup (words k.machine.mem) r (p.virtualAddress + i)
        ∧ byteAt k'.machine r (p.virtualAddress + i) = byteAt k.machine r (p.virtualAddress + i)) :
  Loaded b r data k₀ p k'
  := by
  refine ⟨?_, ?_, ?_⟩
  · intro i hi
    rw [(hsame i hi).1]
    exact h.mapped i hi
  · intro i hi
    rw [(hsame i (Nat.lt_of_lt_of_le hi hp)).2]
    exact h.file i hi
  · intro i hle hi
    rw [(hsame i hi).2]
    exact h.zero i hle hi

/-- A byte of the process that is not written. -/
theorem Ready.byteAt_written {a n c : Nat} {bytes : Nat → UInt8} {mem : Memory}
    (h : Ready b own fs k) (hown : own r) (ha : a + n ≤ userspaceTop)
    (hback : Backed (words k.machine.mem) r a n)
    (hw : Written (words k.machine.mem) r a n bytes k.machine.mem mem) (hc : c < userspaceTop)
    (hne : lookup (words k.machine.mem) r c ≠ 0) (hnot : ∀ i < n, c ≠ a + i) :
  byteAt (k.machine.withMem mem) r c = byteAt k.machine r c
  := by
  have hroot := h.sound.owned hown
  obtain ⟨-, -, hlookup⟩ := h.sound.written hroot ha hback hw
  have hplace : place (words mem) r c = place (words k.machine.mem) r c :=
    place_congr (hlookup r c (Or.inr hroot))
  rw [byteAt, byteAt, Machine.withMem_mem, hplace]
  apply hw.other
  intro i hi heq
  exact hnot i hi (h.sound.place_inj hown hroot hc (by omega) hne
    (lookup_ne_zero (hback i hi).2) heq).2

/-- A byte of the process that is written. -/
theorem Ready.byteAt_of_written {a n i : Nat} {bytes : Nat → UInt8} {mem : Memory}
    (h : Ready b own fs k) (hroot : k.Root r) (ha : a + n ≤ userspaceTop)
    (hback : Backed (words k.machine.mem) r a n)
    (hw : Written (words k.machine.mem) r a n bytes k.machine.mem mem) (hi : i < n) :
  byteAt (k.machine.withMem mem) r (a + i) = bytes i
  := by
  obtain ⟨-, -, hlookup⟩ := h.sound.written hroot ha hback hw
  have hplace : place (words mem) r (a + i) = place (words k.machine.mem) r (a + i) :=
    place_congr (hlookup r _ (Or.inr hroot))
  rw [byteAt, Machine.withMem_mem, hplace, hw.written i hi]

/-- The copying and the clearing of `load_elf_segment`, when the pages of the segment are there. -/
theorem Ready.fill {size : Nat} (h : Ready b own fs k) (hown : own r) (hp : p.Loadable)
    (himage : Image b fs data size k) (hread : Readable b data size k) (hbound : data + size < 2 ^ 64)
    (hin : p.offset + p.fileSize ≤ size)
    (hmapped : ∀ i < p.memSize,
      lookup (words k.machine.mem) r (p.virtualAddress + i) / pageSize ≠ 0) :
  ∃ mem, (vmmP4Memset (frame b) (vmmP4Memcpy (frame b) k.machine (frame r) p.virtualAddress 0
          (incptr data p.offset) p.fileSize).2 (frame r) (p.virtualAddress + p.fileSize) 0
          (p.memSize - p.fileSize)).2 = k.machine.withMem mem
    ∧ Touches (words k.machine.mem) r k.machine.mem mem
    ∧ Loaded b r data k p (k.withMachine (k.machine.withMem mem))
    ∧ ∀ c < userspaceTop, lookup (words k.machine.mem) r c ≠ 0 → ¬ p.Has c →
        byteAt (k.machine.withMem mem) r c = byteAt k.machine r c
  := by
  have hroot := h.sound.owned hown
  obtain ⟨hsize, htop⟩ := hp
  have hresolve := h.resolveP4 hroot
  have huser : ∀ i < p.memSize, p4Offset (p.virtualAddress + i) ≠ 511
      ∧ ¬ UnderHuge (p.virtualAddress + i) := fun i hi => user_ne_kernel (by omega)
  have hback : Backed (words k.machine.mem) r p.virtualAddress p.fileSize :=
    fun i hi => ⟨(huser i (by omega)).2, hmapped i (by omega)⟩
  have hsrc : Backed (words k.machine.mem) b (data + p.offset) p.fileSize := by
    intro i hi
    obtain ⟨hhuge, hne, -⟩ := hread (p.offset + i) (by omega)
    rw [Nat.add_assoc]
    exact ⟨hhuge, hne⟩
  have hdisj : ∀ i j, i < p.fileSize → j < p.fileSize →
      lookup (words k.machine.mem) r (p.virtualAddress + i) / pageSize
        ≠ lookup (words k.machine.mem) b (data + p.offset + j) / pageSize := by
    intro i j hi hj heq
    obtain ⟨f, hf, -, -, hfree⟩ := himage.page (p.offset + j) (by omega)
    rw [(hread (p.offset + j) (by omega)).2.2] at hf
    obtain rfl := Option.some.inj hf
    apply hfree
    rw [Nat.add_assoc] at heq
    exact ⟨r, p.virtualAddress + i, hroot, (huser i (by omega)).1,
      lookup_ne_zero (hmapped i (by omega)), heq.symm⟩
  have hinc : incptr data p.offset = data + p.offset := incptr_of_lt (by omega)
  -- the bytes of the image
  obtain ⟨mem₁, hcopy, hw₁⟩ := @Sound.memcpyLoop b r (frame r) own k.Root fs b 0 p.fileSize p.fileSize
    p.virtualAddress (data + p.offset) 0 k.machine h.sound hown (Or.inl rfl) hresolve rfl hback hsrc
    hdisj (by omega) (by omega) (Nat.le_refl _)
  have htouch₁ := hw₁.touches (by omega) hback
  obtain ⟨hready₁, -, hlookup₁⟩ := h.touched hroot htouch₁
  -- the zeros
  have hback₁ : Backed (words mem₁) r (p.virtualAddress + p.fileSize) (p.memSize - p.fileSize) := by
    intro i hi
    rw [hlookup₁ r _ (Or.inr hroot), Nat.add_assoc]
    exact ⟨(huser _ (by omega)).2, hmapped _ (by omega)⟩
  obtain ⟨mem₂, hset, hw₂⟩ := @Sound.memsetLoop b r (frame r) own _ fs (p.memSize - p.fileSize)
    (p.memSize - p.fileSize) (p.virtualAddress + p.fileSize) 0 0 _ hready₁.sound hown hresolve hback₁
    (by omega) (Nat.le_refl _)
  rw [Kernel.withMachine_machine, Machine.withMem_mem] at hw₂
  have htouch₂ := hw₂.touches (by omega) hback₁
  have htouch : Touches (words k.machine.mem) r k.machine.mem mem₂ :=
    htouch₁.trans (htouch₂.congr fun c => (hlookup₁ r c (Or.inr hroot)).symm)
  obtain ⟨-, -, hlookup₂⟩ := h.touched hroot htouch
  have hne : ∀ i < p.memSize, lookup (words mem₁) r (p.virtualAddress + i) ≠ 0 := by
    intro i hi
    rw [hlookup₁ r _ (Or.inr hroot)]
    exact lookup_ne_zero (hmapped i hi)
  refine ⟨mem₂, ?_, htouch, ⟨?_, ?_, ?_⟩, ?_⟩
  · rw [hinc, vmmP4Memcpy, hcopy, vmmP4Memset]
    rw [Kernel.withMachine_machine] at hset
    rw [hset]
    rfl
  · intro i hi
    rw [Kernel.withMachine_machine, Machine.withMem_mem, hlookup₂ r _ (Or.inr hroot)]
    exact hmapped i hi
  · intro i hi
    have hkeep := hready₁.byteAt_written hown (by omega) hback₁ hw₂
      (show p.virtualAddress + i < userspaceTop by omega) (hne i (by omega)) (fun j hj => by omega)
    have hbyte := h.byteAt_of_written hroot (by omega) hback hw₁ hi
    rw [Kernel.withMachine_machine] at hkeep
    rw [Kernel.withMachine_machine]
    refine (hkeep.trans hbyte).trans ?_
    obtain ⟨-, -, hf⟩ := hread (p.offset + i) (by omega)
    rw [Nat.add_assoc, kernelMemory_eq hf, place]
  · intro i hle hi
    have hbyte := hready₁.byteAt_of_written hroot (by omega) hback₁ hw₂
      (show i - p.fileSize < p.memSize - p.fileSize by omega)
    rw [Nat.add_assoc, Nat.add_sub_cancel' hle] at hbyte
    exact hbyte
  · intro c hc hcne hnot
    rw [PHead.Has] at hnot
    have hcne₁ : lookup (words mem₁) r c ≠ 0 := by
      rw [hlookup₁ r c (Or.inr hroot)]
      exact hcne
    have hkeep₁ := h.byteAt_written hown (by omega) hback hw₁ hc hcne (fun j hj => by omega)
    have hkeep₂ := hready₁.byteAt_written hown (by omega) hback₁ hw₂ hc hcne₁ (fun j hj => by omega)
    exact hkeep₂.trans hkeep₁

end Segment

/-! ### One segment after the other -/

/-- The map `m` with the P4 `r` has an area for each of the segments `ds`, and the bytes of the
segments `cs` of the image that the kernel has had since it was `k₀`. -/
structure Loading (b : Nat) (own : Nat → Prop) (r m data size : Nat) (k₀ : Kernel) (fs : List Nat)
    (ds cs : List PHead) (zs : List Nat) (k : Kernel) : Prop where
  ready : Ready b own fs k
  live : k.live m = true
  P4 : (k.map m).P4 = frame r
  image : Image b fs data size k
  same : SameImage b data size k₀ k
  list : ∃ rank, Ranked (k.map m).areas k.link zs rank
  areas : zs.length ≤ k.areas ∧ ∀ z ∈ zs, z < k.areas
  bounds : ∀ z ∈ zs, ∃ p ∈ ds, (k.area z).start = p.virtualAddress
    ∧ (k.area z).stop = p.virtualAddress + p.memSize
  loaded : ∀ p ∈ cs, Loaded b r data k₀ p k

section Loading

variable {b r m data size : Nat} {own : Nat → Prop} {fs zs : List Nat} {grow : Nat → Nat}
  {k₀ k : Kernel} {ds cs : List PHead} {p : PHead}

/-- The image can be read as before. -/
theorem Loading.readable (h : Loading b own r m data size k₀ fs ds cs zs k)
    (hread : Readable b data size k₀) :
  Readable b data size k
  := by
  intro i hi
  obtain ⟨-, hlookup, htranslate⟩ := h.same i hi
  obtain ⟨hhuge, hne, hf⟩ := hread i hi
  rw [hlookup]
  exact ⟨hhuge, hne, htranslate _ hf⟩

/-- Mapping the next segment. -/
theorem Loading.map (h : Loading b own r m data size k₀ fs ds ds zs k) (hp : p.Loadable)
    (hreach : p.Reached) (hds : ∀ q ∈ ds, q.Loadable ∧ q.Apart p)
    (hroom : k.heapBrk + pageSize * k.demand grow ≤ 2 ^ 64)
    (hlen : 4 * (k.demand grow + turns p.virtualAddress (p.virtualAddress + p.memSize))
      ≤ fs.length) :
  ∃ k' used fs', fs = used ++ fs'
    ∧ used.length ≤ 4 * (k.demand grow + turns p.virtualAddress (p.virtualAddress + p.memSize))
    ∧ procmmMap (frame b) grow k m p.virtualAddress (p.virtualAddress + p.memSize) 0
        = some (some k.areas, k')
    ∧ Loading b own r m data size k₀ fs' (ds ++ [p]) ds (zs ++ [k.areas]) k'
    ∧ (0 ∉ used → ∀ i < p.memSize,
        lookup (words k'.machine.mem) r (p.virtualAddress + i) / pageSize ≠ 0)
    ∧ k'.heapBrk = k.heapBrk + pageSize * k.demand grow ∧ k'.areas = k.areas + 1
    ∧ k'.maps = k.maps
  := by
  have hroot : k.Root r := ⟨m, h.live, h.P4⟩
  have htop := hp.2
  obtain ⟨rank, hrank⟩ := h.list
  have hnew : k.areas ∉ zs := fun hmem => Nat.lt_irrefl _ (h.areas.2 _ hmem)
  have hold : ∀ z ∈ zs, (k.addArea ⟨p.virtualAddress, p.virtualAddress + p.memSize, 0, m⟩).area z
      = k.area z := fun z hz => addArea_old (h.areas.2 z hz)
  have hself := @addArea_new k ⟨p.virtualAddress, p.virtualAddress + p.memSize, 0, m⟩
  have hapart : ∀ z ∈ zs,
      ((k.addArea ⟨p.virtualAddress, p.virtualAddress + p.memSize, 0, m⟩).area z).stop
        < ((k.addArea ⟨p.virtualAddress, p.virtualAddress + p.memSize, 0, m⟩).area k.areas).start
      ∨ ((k.addArea ⟨p.virtualAddress, p.virtualAddress + p.memSize, 0, m⟩).area z).start
        > ((k.addArea ⟨p.virtualAddress, p.virtualAddress + p.memSize, 0, m⟩).area k.areas).stop := by
    intro z hz
    obtain ⟨q, hq, hstart, hstop⟩ := h.bounds z hz
    rw [hold z hz, hself, hstart, hstop]
    exact (hds q hq).2.gap
  have hfuel : zs.length < 2 * (k.areas + 1) + 1 := by
    have := h.areas.1
    omega
  obtain ⟨head', link', rank', hinsert, hrank', -⟩ := hrank.insertArea hnew hapart hfuel
  obtain ⟨k', used, fs', rfl, hused, hcall, hready', hkeeps, hpaged, hheap, hinserts⟩ | ⟨hlt, -⟩ :=
    h.ready.procmmMap_insert h.live h.P4 hinsert htop hroom
  · rw [if_pos rfl] at hcall hpaged
    have hspends := h.ready.spends hready' hroot htop hkeeps hpaged
    obtain ⟨himage, hsame⟩ := h.image.spends h.ready hready' hroot hspends
    have hroot' : k'.Root r := by
      rw [hkeeps.root]
      exact hroot
    refine ⟨k', used, fs', rfl, hused, hcall, ⟨hready', ?_, ?_, himage, h.same.trans hsame, ?_, ?_, ?_,
      ?_⟩, ?_, hheap, hinserts.areas, hkeeps.maps⟩
    · rw [hkeeps.live]
      exact h.live
    · rw [hkeeps.P4]
      exact h.P4
    · refine ⟨rank', ?_⟩
      rw [hinserts.map, Function.update_self, hinserts.link]
      exact hrank'
    · rw [hinserts.areas, List.length_append, List.length_singleton]
      refine ⟨Nat.succ_le_succ h.areas.1, ?_⟩
      intro z hz
      obtain hz | hz := List.mem_append.mp hz
      · exact Nat.lt_succ_of_lt (h.areas.2 z hz)
      · rw [List.mem_singleton.mp hz]
        exact Nat.lt_succ_self _
    · intro z hz
      rw [hinserts.area]
      obtain hz | hz := List.mem_append.mp hz
      · obtain ⟨q, hq, hbounds⟩ := h.bounds z hz
        rw [hold z hz]
        exact ⟨q, List.mem_append_left _ hq, hbounds⟩
      · rw [List.mem_singleton.mp hz, hself]
        exact ⟨p, List.mem_append_right _ List.mem_cons_self, rfl, rfl⟩
    · intro q hq
      obtain ⟨hqload, hqapart⟩ := hds q hq
      have hqtop := hqload.2
      apply (h.loaded q hq).congr hqload.1
      intro i hi
      have hctop : q.virtualAddress + i < userspaceTop := by omega
      have huser := (user_ne_kernel hctop).1
      have hsame : lookup (words k'.machine.mem) r (q.virtualAddress + i)
          = lookup (words k.machine.mem) r (q.virtualAddress + i) := by
        apply hpaged.user h.ready hready' (Or.inr hroot) huser
        rintro ⟨-, hstep⟩
        obtain ⟨x, hle, hlt, hpage⟩ := hstep.exists htop hctop
        exact hqapart.pages (q.virtualAddress + i) x ⟨Nat.le_add_right _ _, by omega⟩ ⟨hle, hlt⟩
          hpage
      refine ⟨hsame, hkeeps.byteAt_eq hready' hroot' huser ?_ hsame⟩
      rw [hsame]
      exact lookup_ne_zero ((h.loaded q hq).mapped i hi)
    · intro hzero i hi
      have hstep := hreach.stepped hp (c := p.virtualAddress + i) ⟨Nat.le_add_right _ _, by omega⟩
      obtain ⟨f, hf, heq⟩ := hpaged.page (Option.some_ne_none _) hstep
      rw [heq, (userFlags_entry f).2]
      rintro rfl
      exact hzero hf
  · omega

/-- Filling the next segment. -/
theorem Loading.fill (h : Loading b own r m data size k₀ fs (ds ++ [p]) ds zs k) (hown : own r)
    (hp : p.Loadable) (hread : Readable b data size k₀) (hbound : data + size < 2 ^ 64)
    (hin : p.offset + p.fileSize ≤ size) (hds : ∀ q ∈ ds, q.Loadable ∧ q.Apart p)
    (hmapped : ∀ i < p.memSize,
      lookup (words k.machine.mem) r (p.virtualAddress + i) / pageSize ≠ 0) :
  ∃ s, (vmmP4Memset (frame b) (vmmP4Memcpy (frame b) k.machine (k.map m).P4 p.virtualAddress 0
          (incptr data p.offset) p.fileSize).2 (k.map m).P4 (p.virtualAddress + p.fileSize) 0
          (p.memSize - p.fileSize)).2 = s
    ∧ Loading b own r m data size k₀ fs (ds ++ [p]) (ds ++ [p]) zs (k.withMachine s)
  := by
  have hroot := h.ready.sound.owned hown
  obtain ⟨mem, heq, htouch, hloaded, hother⟩ :=
    h.ready.fill hown hp h.image (h.readable hread) hbound hin hmapped
  obtain ⟨hready, hspends, hlookup⟩ := h.ready.touched hroot htouch
  obtain ⟨himage, hsame⟩ := @Image.spends b r data size own [] fs k _ h.image h.ready hready hroot hspends
  rw [h.P4]
  refine ⟨k.machine.withMem mem, heq, hready, h.live, h.P4, himage, h.same.trans hsame, h.list, h.areas,
    h.bounds, ?_⟩
  · intro q hq
    obtain hq | hq := List.mem_append.mp hq
    · obtain ⟨hqload, hqapart⟩ := hds q hq
      have hqtop := hqload.2
      apply (h.loaded q hq).congr hqload.1
      intro i hi
      refine ⟨hlookup r _ (Or.inr hroot), ?_⟩
      apply hother _ (by omega) (lookup_ne_zero ((h.loaded q hq).mapped i hi))
      intro hhas
      exact hqapart.pages _ _ ⟨Nat.le_add_right _ _, by omega⟩ hhas rfl
    · rw [List.mem_singleton.mp hq]
      refine ⟨hloaded.mapped, ?_, hloaded.zero⟩
      intro i hi
      rw [hloaded.file i hi, Nat.add_assoc]
      exact (h.same (p.offset + i) (by omega)).1

/-- The pages of the segments. -/
def segmentPages (ps : List PHead) : Nat :=
  (ps.map fun p => turns p.virtualAddress (p.virtualAddress + p.memSize)).sum

/-- The frames that loading the segments takes off the free stack, at most. -/
def loadFrames (grow : Nat → Nat) (k : Kernel) (ps : List PHead) : Nat :=
  4 * (heapPages grow (k.areas + k.maps) ps.length + segmentPages ps)

/-- Loading the segments one after the other. -/
theorem Loading.loadAll {ps : List PHead} (h : Loading b own r m data size k₀ fs ds ds zs k)
    (hown : own r) (hread : Readable b data size k₀) (hbound : data + size < 2 ^ 64)
    (hps : ∀ p ∈ ps, p.Loadable ∧ p.offset + p.fileSize ≤ size ∧ p.Reached)
    (hds : ∀ q ∈ ds, q.Loadable) (hapart : (ds ++ ps).Pairwise PHead.Apart)
    (hroom : k.heapBrk + pageSize * heapPages grow (k.areas + k.maps) ps.length ≤ 2 ^ 64)
    (hlen : loadFrames grow k ps ≤ fs.length) (hzero : 0 ∉ fs.take (loadFrames grow k ps)) :
  ∃ k' fs' zs', loadAll (frame b) grow m data k ps = some k'
    ∧ Loading b own r m data size k₀ fs' (ds ++ ps) (ds ++ ps) zs' k'
  := by
  induction ps generalizing fs zs ds k with
  | nil =>
      rw [List.append_nil]
      exact ⟨k, fs, zs, rfl, h⟩
  | cons p ps ih =>
      rw [List.forall_mem_cons] at hps
      obtain ⟨⟨hp, hin, hreach⟩, hps⟩ := hps
      have hsplit : loadFrames grow k (p :: ps)
          = 4 * (k.demand grow + turns p.virtualAddress (p.virtualAddress + p.memSize))
            + 4 * (heapPages grow (k.areas + k.maps + 1) ps.length + segmentPages ps) := by
        rw [loadFrames, segmentPages, List.map_cons, List.sum_cons, List.length_cons, heapPages,
          segmentPages, Kernel.demand]
        omega
      have hheap : heapPages grow (k.areas + k.maps) (p :: ps).length
          = k.demand grow + heapPages grow (k.areas + k.maps + 1) ps.length := rfl
      rw [hsplit] at hlen hzero
      rw [hheap, Nat.mul_add] at hroom
      have hdsp : ∀ q ∈ ds, q.Loadable ∧ q.Apart p := by
        intro q hq
        exact ⟨hds q hq, (List.pairwise_append.mp hapart).2.2 q hq p List.mem_cons_self⟩
      have hroom₁ : k.heapBrk + pageSize * k.demand grow ≤ 2 ^ 64 := by omega
      obtain ⟨k₁, used, fs₁, rfl, hused, hcall, h₁, hmapped, hbrk, hareas, hmaps⟩ :=
        h.map hp hreach hdsp hroom₁ (by omega)
      obtain ⟨hzero₁, hzero'⟩ := notMem_take hzero hused
      obtain ⟨s, hs, h₂⟩ := h₁.fill hown hp hread hbound hin hdsp (hmapped hzero₁)
      have hcount : k.areas + k.maps + 1 = (k₁.withMachine s).areas + (k₁.withMachine s).maps := by
        rw [Kernel.withMachine_areas, Kernel.withMachine_maps, hareas, hmaps]
        omega
      rw [hcount] at hlen hzero' hroom
      rw [List.length_append] at hlen
      have hds' : ∀ q ∈ ds ++ [p], q.Loadable := by
        intro q hq
        obtain hq | hq := List.mem_append.mp hq
        · exact hds q hq
        · rw [List.mem_singleton.mp hq]
          exact hp
      rw [List.append_cons] at hapart ⊢
      obtain ⟨k', fs', zs', hload, hloading⟩ := ih h₂ hps hds' hapart
        (by rw [Kernel.withMachine_heapBrk, hbrk]; omega)
        (by rw [loadFrames]; omega) hzero'
      refine ⟨k', fs', zs', ?_, hloading⟩
      rw [Procmm.loadAll, loadElfSegment_eq hp, hcall, Option.map_some]
      dsimp only
      rw [hs]
      exact hload

end Loading

section Executable

variable {data : Words} {f g : Nat} {fs fs' : List Nat} {k : Kernel}

/-- The bytes in the first page of the heap are an image that can be read. -/
theorem HeapPage.image {o n : Nat} (h : HeapPage data f g fs fs' k) (hfs : Spare (f :: g :: fs))
    (hg : g ≠ 0) (hn : o + n ≤ pageSize) :
  Image 16 fs' (kernelHeapS + o) n k ∧ Readable 16 (kernelHeapS + o) n k
    ∧ ∀ i < n, translate (words k.machine.mem) 16 (kernelHeapS + o + i) = some g
  := by
  obtain ⟨new, hnew, -⟩ := h.frames
  have hdiv : addFlags (frame g) (pagePresent ||| pageWrite) / pageSize = g := by
    rw [addFlags_div, frame_div]
  have hlt : g < 2 ^ 40 := by
    have := (hfs.2 g (List.mem_cons_of_mem _ List.mem_cons_self)).1
    omega
  have hpages : ∀ i < n, ¬ UnderHuge (kernelHeapS + o + i)
      ∧ lookup (words k.machine.mem) 16 (kernelHeapS + o + i) / pageSize = g
      ∧ translate (words k.machine.mem) 16 (kernelHeapS + o + i) = some g := by
    intro i hi
    have hlookup := h.page (o + i) (by omega)
    rw [← Nat.add_assoc] at hlookup
    have hhuge : ¬ UnderHuge (kernelHeapS + o + i) := by
      rw [pageSize] at hn
      apply (heap_not_huge _ _).2
      · omega
      · rw [kernelHeapS]
        omega
    refine ⟨hhuge, ?_, ?_⟩
    · rw [hlookup, hdiv]
    · rw [h.ready.sound.half.toKernelTables.translate_eq (Or.inl rfl) h.ready.sound.present hhuge,
        hlookup, frameOf_eq, hdiv]
      · rw [hdiv]
        exact hlt
      · rw [hlookup]
        exact isPresent_addFlags g rfl
  refine ⟨⟨?_, ?_⟩, ?_, fun i hi => (hpages i hi).2.2⟩
  · intro i hi
    refine ⟨g, (hpages i hi).2.2, ?_, h.notTable, ?_⟩
    · intro hmem
      apply (List.nodup_cons.mp (List.nodup_cons.mp hfs.1).2).1
      rw [hnew]
      exact List.mem_append_right _ hmem
    · rintro ⟨q, c, hq, hc, hne, -⟩
      rw [h.roots q hq] at hne
      exact hne (h.empty c hc)
  · rintro i hi ⟨j, hj, hpage⟩
    rw [lt_turns_iff] at hj
    rw [samePage_iff_mod] at hpage
    rw [h.heap, kernelHeapS, pageSize] at hpage hj
    rw [pageSize] at hn
    omega
  · intro i hi
    obtain ⟨hhuge, hlookup, htranslate⟩ := hpages i hi
    rw [hlookup]
    exact ⟨hhuge, hg, htranslate⟩

/-- The bytes of the image are those that the frame has had from the start. -/
theorem HeapPage.byte {o n : Nat} (h : HeapPage data f g fs fs' k)
    (hdata : ∀ n i, data n i < 2 ^ 64) (hfs : Spare (f :: g :: fs)) (hg : g ≠ 0) (ho : 8 ≤ o)
    (hn : o + n ≤ pageSize) {i : Nat} (hi : i < n) :
  kernelMemory (frame 16) k.machine (kernelHeapS + o + i) = ofWords data (frame g + o + i)
  := by
  obtain ⟨-, -, htranslate⟩ := h.image hfs hg hn
  have hmod : (kernelHeapS + o + i) % pageSize = o + i := by
    rw [pageSize] at hn
    rw [kernelHeapS, pageSize]
    omega
  have hdiv : (frame g + (o + i)) / pageSize = g := by
    rw [frame, Nat.mul_add_div (by decide), Nat.div_eq_of_lt (by omega), Nat.add_zero]
  have hindex : Fin.ofNat 512 ((frame g + (o + i)) / 8) ≠ 0 := by
    intro heq
    have hval := congrArg Fin.val heq
    rw [Fin.val_ofNat, frame, pageSize, Fin.val_zero] at hval
    rw [pageSize] at hn
    omega
  rw [kernelMemory_eq (htranslate i hi), hmod, Nat.add_assoc (frame g)]
  apply byte_of_word
  rw [hdiv, h.words_eq, words_start hdata hfs (Or.inr hindex), startWords, if_neg, words_ofWords]
  · apply hdata
  · exact (hfs.2 g (List.mem_cons_of_mem _ List.mem_cons_self)).2

/-- The words of an image with the one program header `p`, which starts at the word 8 of the
frame 33; its last word is the one that `p` may load. -/
def imageWords (p : PHead) : Words := fun n i =>
  if n = 33 then
    match i.val with
    | 8 => 0x464c457f
    | 10 => elfTypeExecutable
    | 11 => p.virtualAddress
    | 12 => 64
    | 15 => 1
    | 16 => p.type
    | 17 => p.offset
    | 18 => p.virtualAddress
    | 20 => p.fileSize
    | 21 => p.memSize
    | 23 => 0x1122334455667788
    | _ => 0
  else 0

/-- The address of the image. -/
def imageStart : Nat := kernelHeapS + 64

/-- A first process with the P4 32 and an empty memory, and an image with the one segment `p`. -/
structure Stored (p : PHead) (fs : List Nat) (k : Kernel) : Prop where
  ready : Ready 16 (withRoot 32 fun _ => False) fs k
  live : k.live 0 = true
  map : k.map 0 = ⟨frame 32, nil, none, none⟩
  image : Image 16 fs imageStart 128 k
  readable : Readable 16 imageStart 128 k
  headers : Headers (kernelMemory (frame 16) k.machine) imageStart 128
  header : elfHeader (kernelMemory (frame 16) k.machine) imageStart
    = ⟨elfMagic, elfTypeExecutable, p.virtualAddress, 64, 1⟩
  segments : segments (kernelMemory (frame 16) k.machine) imageStart = [p]
  frames : 37 ≤ fs.length ∧ 0 ∉ fs
  empty : ∀ c, p4Offset c ≠ 511 → lookup (words k.machine.mem) 32 c = 0
  heap : k.heapBrk = kernelHeapS + pageSize
  areas : k.areas = 0

theorem exists_stored {p : PHead} (hdata : ∀ n i, imageWords p n i < 2 ^ 64)
    (hheader : elfHeader (ofWords (imageWords p)) (frame 33 + 64)
      = ⟨elfMagic, elfTypeExecutable, p.virtualAddress, 64, 1⟩)
    (hphead : elfPHead (ofWords (imageWords p)) (frame 33 + 128) = p) (htype : p.type = elfPtLoad) :
  ∃ fs k, Stored p fs k
  := by
  have hfs : Spare (32 :: 33 :: List.range' 34 40) := by
    refine ⟨by decide, ?_⟩
    intro f hf
    have hle : 32 ≤ f ∧ f < 74 := by
      rw [List.mem_cons, List.mem_cons, List.mem_range'_1] at hf
      omega
    omega
  obtain ⟨k, fs, h⟩ := exists_heapPage hdata (by decide) hfs (by decide)
  have hn : 64 + 128 ≤ pageSize := by decide
  obtain ⟨himage, hread, -⟩ := h.image hfs (by decide) hn
  have hbyte : ∀ i < 128, kernelMemory (frame 16) k.machine (imageStart + i)
      = ofWords (imageWords p) (frame 33 + 64 + i) :=
    fun i hi => h.byte hdata hfs (by decide) (by decide) hn hi
  have hheaders₀ : Headers (ofWords (imageWords p)) (frame 33 + 64) 128 := by
    refine ⟨by decide, ?_, by decide⟩
    rw [hheader]
    dsimp only
    decide
  have hheader' := (elfHeader_congr hbyte (by decide)).trans hheader
  have hbound : imageStart + 128 < 2 ^ 64 := by decide
  have hphead' : pheadAt (kernelMemory (frame 16) k.machine) imageStart 0 = p := by
    rw [pheadAt_congr hbyte hheaders₀ hbound]
    · rw [pheadAt, hheader]
      exact hphead
    · rw [hheader]
      exact Nat.one_pos
  obtain ⟨new, hnew, hlen⟩ := h.frames
  refine ⟨fs, k, h.ready, h.live, h.map, himage, hread, ⟨by decide, ?_, hbound⟩, hheader', ?_, ?_,
    h.empty, h.heap, h.areas⟩
  · rw [hheader']
    dsimp only
    decide
  · rw [Procmm.segments, hheader', segmentsFrom, List.range'_one, List.map_singleton, hphead',
      List.filter_singleton, htype]
    rfl
  · constructor
    · have hall := congrArg List.length hnew
      rw [List.length_append, List.length_range'] at hall
      omega
    · intro hmem
      have hmem' : 0 ∈ List.range' 34 40 := by
        rw [hnew]
        exact List.mem_append_right _ hmem
      exact absurd hmem' (by decide)

/-- The words of the image are words. -/
theorem imageWords_lt {p : PHead} (h : p.virtualAddress < 2 ^ 64 ∧ p.type < 2 ^ 64
      ∧ p.offset < 2 ^ 64 ∧ p.fileSize < 2 ^ 64 ∧ p.memSize < 2 ^ 64) (n : Nat) (i : Fin 512) :
  imageWords p n i < 2 ^ 64
  := by
  rw [imageWords]
  split_ifs
  · split
    all_goals first | omega | decide
  · decide

/-- The header of a segment from `0x1000` on. -/
def oneSegment : PHead := ⟨elfPtLoad, 120, 0x1000, 8, 0x800⟩

/-- The header of a segment that starts in the middle of a page and ends before the middle of
another one. -/
def lateSegment : PHead := ⟨elfPtLoad, 120, 0x1800, 8, 0x1000⟩

end Executable

end Procmm
