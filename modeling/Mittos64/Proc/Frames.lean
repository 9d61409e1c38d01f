import Mittos64.Proc.Elf
import Mittos64.Proc.Setup

/-!
# The frames of a process

What a call for one process leaves alone.  Writing to the pages of a process touches its own
frames only, also where the loops of `vmm_p4_memcpy` and `vmm_p4_memset` stop at a page that is
not there; mapping pages takes frames off the free stack.  `Spends` puts the two together, and an
image in the memory of the kernel is not changed by them.
-/

namespace Procmm

open Mem

/-- The frame is mapped at a user page of the address space `r`. -/
def Owns (T : Words) (r n : Nat) : Prop :=
  ∃ c, p4Offset c ≠ 511 ∧ lookup T r c ≠ 0 ∧ n = lookup T r c / pageSize

/-- The memories differ in the frames of the address space `r` only. -/
def Touches (T : Words) (r : Nat) (m m' : Memory) : Prop :=
  ∀ x, ¬ Owns T r (x / pageSize) → m' x = m x

theorem Touches.trans {T : Words} {r : Nat} {m m' m'' : Memory} (h : Touches T r m m')
    (h' : Touches T r m' m'') :
  Touches T r m m''
  := by
  intro x hx
  rw [h' x hx, h x hx]

/-- The memories differ at the places of the `n` addresses from `a` on only. -/
def Within (T : Words) (r a n : Nat) (m m' : Memory) : Prop :=
  ∀ x, (∀ i < n, x ≠ place T r (a + i)) → m' x = m x

theorem Within.trans {T : Words} {r a n : Nat} {m m' m'' : Memory} (h : Within T r a n m m')
    (h' : Within T r a n m' m'') :
  Within T r a n m m''
  := by
  intro x hx
  rw [h' x hx, h x hx]

/-- The places are the same when the entries are. -/
theorem Within.congr {T T' : Words} {r a n : Nat} {m m' : Memory} (h : Within T r a n m m')
    (hT : ∀ c, lookup T' r c = lookup T r c) :
  Within T' r a n m m'
  := by
  intro x hx
  apply h
  intro i hi
  have hplace := hx i hi
  rw [place, hT] at hplace
  exact hplace

/-- Places of a part of the addresses. -/
theorem Within.mono {T : Words} {r a n c l : Nat} {m m' : Memory} (h : Within T r c l m m')
    (hle : a ≤ c) (hend : c + l ≤ a + n) :
  Within T r a n m m'
  := by
  intro x hx
  apply h
  intro i hi
  have hplace := hx (c - a + i) (by omega)
  rw [← Nat.add_assoc, Nat.add_sub_cancel' hle] at hplace
  exact hplace

/-- Writing to mapped pages of the process touches its frames only. -/
theorem Within.touches {T : Words} {r a n : Nat} {m m' : Memory} (h : Within T r a n m m')
    (ha : a + n ≤ userspaceTop) (hne : ∀ i < n, lookup T r (a + i) ≠ 0) :
  Touches T r m m'
  := by
  intro x hx
  apply h
  rintro i hi rfl
  apply hx
  rw [place_div]
  exact ⟨a + i, (user_ne_kernel (by omega)).1, hne i hi, rfl⟩

/-- What is written to pages of the process touches its frames only. -/
theorem Written.touches {T : Words} {r a n : Nat} {bytes : Nat → UInt8} {m m' : Memory}
    (h : Written T r a n bytes m m') (ha : a + n ≤ userspaceTop) (hback : Backed T r a n) :
  Touches T r m m'
  := by
  have hwithin : Within T r a n m m' := h.other
  apply hwithin.touches ha
  exact fun i hi => lookup_ne_zero (hback i hi).2

/-! ### The loops, whether they come to their end or not -/

section Loops

variable {b q P4 : Nat} {own live : Nat → Prop} {fs : List Nat}

/-- Touching the frames of a process changes neither tables nor free frames. -/
theorem Sound.touched {s : Machine} {mem : Memory} (h : Sound b own live fs s) (hq : live q)
    (ht : Touches (words s.mem) q s.mem mem) :
  Sound b own live fs (s.withMem mem)
    ∧ (∀ n, IsTable b live s n ∨ n ∈ fs ∨ ¬ Owns (words s.mem) q n → words mem n = words s.mem n)
    ∧ ∀ r c, Roots b live r → lookup (words mem) r c = lookup (words s.mem) r c
  := by
  have hwords : ∀ n, IsTable b live s n ∨ n ∈ fs ∨ ¬ Owns (words s.mem) q n →
      words mem n = words s.mem n := by
    intro n hn
    apply words_of_bytes
    rintro x rfl
    apply ht
    rintro ⟨c, hc, hne, heq⟩
    have hmapped : Mapped (words s.mem) live (x / pageSize) := ⟨q, c, hq, hc, hne, heq⟩
    obtain hn | hn | hn := hn
    · exact h.half.mapped hmapped hn
    · exact (h.unused _ hn).2.2 hmapped
    · exact hn ⟨c, hc, hne, heq⟩
  obtain ⟨hsound, -, hlookup⟩ := h.withMem (fun n hn => hwords n (Or.inl hn))
    (fun f hf => by rw [hwords f (Or.inr (Or.inl hf))])
  exact ⟨hsound, hwords, hlookup⟩

/-- Frames of the process are the same when its entries are. -/
theorem Touches.congr {T T' : Words} {r : Nat} {m m' : Memory} (h : Touches T r m m')
    (hT : ∀ c, lookup T' r c = lookup T r c) :
  Touches T' r m m'
  := by
  intro x hx
  apply h
  rintro ⟨c, hc, hne, heq⟩
  apply hx
  refine ⟨c, hc, ?_, ?_⟩
  · rw [hT]
    exact hne
  · rw [hT]
    exact heq

/-- A block inside a page of the process. -/
theorem touches_of_page {T : Words} {r a n : Nat} {m m' : Memory} (ha : a < userspaceTop)
    (hne : lookup T r a / pageSize ≠ 0) (hn : a % pageSize + n ≤ pageSize)
    (hother : ∀ x, ¬ (place T r a ≤ x ∧ x < place T r a + n) → m' x = m x) :
  Touches T r m m'
  := by
  intro x hx
  apply hother
  rintro ⟨hle, hlt⟩
  apply hx
  refine ⟨a, (user_ne_kernel ha).1, lookup_ne_zero hne, ?_⟩
  have hdiv := place_div T r a
  have hmod := place_mod T r a
  rw [pageSize] at hdiv hmod hn ⊢
  omega

/-- The loop of `vmm_p4_memcpy` touches the frames of its target only. -/
theorem Sound.memcpyLoop_touches {P4' fuel n dst src copied : Nat} {s : Machine}
    (h : Sound b own live fs s) (hq : live q) (hP4 : resolveP4 (frame b) P4 = frame q)
    (hd : dst + n ≤ userspaceTop) :
  ∃ mem, (Procmm.memcpyLoop (frame b) P4 P4' fuel s dst src n copied).2 = s.withMem mem
    ∧ Touches (words s.mem) q s.mem mem
  := by
  induction fuel generalizing s dst src n copied with
  | zero => exact ⟨s.mem, rfl, fun _ _ => rfl⟩
  | succ fuel ih =>
      rw [Procmm.memcpyLoop]
      split_ifs with hn
      · exact ⟨s.mem, rfl, fun _ _ => rfl⟩
      · dsimp only
        split_ifs with hnull
        · exact ⟨s.mem, rfl, fun _ _ => rfl⟩
        · rw [not_or] at hnull
          obtain ⟨k, hk⟩ : ∃ k, k = min (min (pageSize - dst % pageSize) (pageSize - src % pageSize)) n :=
            ⟨_, rfl⟩
          have hmod : dst % pageSize < pageSize := Nat.mod_lt _ (by decide)
          have huser : dst < userspaceTop := by omega
          obtain ⟨hplace, hzero⟩ := h.page_place (Or.inr hq) hP4 (user_ne_kernel huser).2
          rw [hplace, ← hk]
          obtain ⟨l, hl⟩ : ∃ l, l = s.mem.read
              (stripFlags (vmmGetPage (frame b) s P4' src) + src % pageSize) k := ⟨_, rfl⟩
          have hlen : l.length = k := by
            rw [hl, Memory.read_length]
          rw [← hl]
          have htouch : Touches (words s.mem) q s.mem
              (s.mem.write (place (words s.mem) q dst) l) := by
            apply touches_of_page huser (hzero.not.mp hnull.1) (show dst % pageSize + k ≤ pageSize by omega)
            intro x hx
            apply Memory.write_of_notMem
            rw [hlen]
            omega
          obtain ⟨hsound, -, hlookup⟩ := h.touched hq htouch
          have hinc : incptr dst k = dst + k := by
            apply incptr_of_lt
            rw [userspaceTop] at hd
            omega
          rw [hinc]
          obtain ⟨mem, heq, htouch'⟩ := @ih (n - k) (dst + k) (incptr src k) (copied + k) _ hsound
            (by omega)
          refine ⟨mem, heq, htouch.trans ?_⟩
          exact htouch'.congr fun c => (hlookup q c (Or.inr hq)).symm

/-- The loop of `vmm_p4_memset` touches the frames of its target only. -/
theorem Sound.memsetLoop_touches {fuel n a set : Nat} {c : UInt8} {s : Machine}
    (h : Sound b own live fs s) (hq : live q) (hP4 : resolveP4 (frame b) P4 = frame q)
    (ha : a + n ≤ userspaceTop) :
  ∃ mem, (Procmm.memsetLoop (frame b) P4 c fuel s a n set).2 = s.withMem mem
    ∧ Touches (words s.mem) q s.mem mem
  := by
  induction fuel generalizing s a n set with
  | zero => exact ⟨s.mem, rfl, fun _ _ => rfl⟩
  | succ fuel ih =>
      rw [Procmm.memsetLoop]
      split_ifs with hn
      · exact ⟨s.mem, rfl, fun _ _ => rfl⟩
      · dsimp only
        split_ifs with hnull
        · exact ⟨s.mem, rfl, fun _ _ => rfl⟩
        · obtain ⟨k, hk⟩ : ∃ k, k = min (pageSize - a % pageSize) n := ⟨_, rfl⟩
          have hmod : a % pageSize < pageSize := Nat.mod_lt _ (by decide)
          have huser : a < userspaceTop := by omega
          obtain ⟨hplace, hzero⟩ := h.page_place (Or.inr hq) hP4 (user_ne_kernel huser).2
          rw [hplace, ← hk]
          have htouch : Touches (words s.mem) q s.mem
              (s.mem.fill (place (words s.mem) q a) c k) := by
            apply touches_of_page huser (hzero.not.mp hnull) (show a % pageSize + k ≤ pageSize by omega)
            intro x hx
            apply Memory.fill_of_notMem
            omega
          obtain ⟨hsound, -, hlookup⟩ := h.touched hq htouch
          have hinc : incptr a k = a + k := by
            apply incptr_of_lt
            rw [userspaceTop] at ha
            omega
          rw [hinc]
          obtain ⟨mem, heq, htouch'⟩ := @ih (n - k) (a + k) (set + k) _ hsound (by omega)
          refine ⟨mem, heq, htouch.trans ?_⟩
          exact htouch'.congr fun c => (hlookup q c (Or.inr hq)).symm

end Loops

/-! ### Calls for one process -/

/-- The kernel `k'` is the kernel `k` after calls for the process with the P4 `r`, which have used
the frames `used`: its pages are as before, or in frames of `used`, and all other frames are as
before. -/
structure Spends (b r : Nat) (used : List Nat) (k k' : Kernel) : Prop where
  live : k'.live = k.live
  maps : k'.maps = k.maps
  P4 : ∀ m, (k'.map m).P4 = (k.map m).P4
  heap : ∃ n, k'.heapBrk = k.heapBrk + pageSize * n
  table : ∀ {n}, IsTable b k.Root k'.machine n → IsTable b k.Root k.machine n ∨ n ∈ used
  kept : Kept b k.Root (words k.machine.mem) (words k'.machine.mem)
  own : ∀ {c}, p4Offset c ≠ 511 →
    lookup (words k'.machine.mem) r c = lookup (words k.machine.mem) r c
      ∨ ∃ f ∈ used, lookup (words k'.machine.mem) r c = addFlags (frame f) userFlags
  other : ∀ {q c}, Roots b k.Root q → ¬ Stepped k.heapBrk k'.heapBrk c →
    (q = r → p4Offset c = 511) →
    lookup (words k'.machine.mem) q c = lookup (words k.machine.mem) q c
  words_eq : ∀ {n}, ¬ IsTable b k.Root k.machine n → ¬ Owns (words k.machine.mem) r n → n ∉ used →
    words k'.machine.mem n = words k.machine.mem n

theorem Stepped.mono {p stop stop' c : Nat} (h : Stepped p stop c) (hle : stop ≤ stop') :
  Stepped p stop' c
  := by
  obtain ⟨i, hi, hpage⟩ := h
  rw [lt_turns_iff] at hi
  exact ⟨i, lt_turns_iff.mpr (Nat.lt_of_lt_of_le hi hle), hpage⟩

/-- A loop that starts some pages later goes through some of the pages. -/
theorem Stepped.add {p stop c n : Nat} (h : Stepped (p + pageSize * n) stop c) :
  Stepped p stop c
  := by
  obtain ⟨i, hi, hpage⟩ := h
  rw [Nat.add_assoc, ← Nat.mul_add] at hpage
  rw [lt_turns_iff, Nat.add_assoc, ← Nat.mul_add] at hi
  exact ⟨n + i, lt_turns_iff.mpr hi, hpage⟩

section Spends

variable {b r : Nat} {own : Nat → Prop} {used used' fs : List Nat} {k k' k'' : Kernel}

theorem Spends.root (h : Spends b r used k k') :
  k'.Root = k.Root
  := by
  funext q
  simp only [Kernel.Root, h.live, h.P4]

/-- The frames of the process are old ones or used ones. -/
theorem Spends.owns (h : Spends b r used k k') {n : Nat} (hn : Owns (words k'.machine.mem) r n) :
  Owns (words k.machine.mem) r n ∨ n ∈ used
  := by
  obtain ⟨c, hc, hne, rfl⟩ := hn
  obtain hsame | ⟨f, hf, heq⟩ := h.own hc
  · left
    rw [hsame] at hne ⊢
    exact ⟨c, hc, hne, rfl⟩
  · right
    rw [heq, (userFlags_entry f).2]
    exact hf

theorem Spends.trans (h : Spends b r used k k') (h' : Spends b r used' k' k'') :
  Spends b r (used ++ used') k k''
  := by
  have hroot := h.root
  obtain ⟨n, hn⟩ := h.heap
  obtain ⟨n', hn'⟩ := h'.heap
  have htable := @h'.table
  have hkept := @h'.kept
  have hwords := @h'.words_eq
  have hother := @h'.other
  rw [hroot] at htable hkept hwords hother
  refine ⟨?_, ?_, ?_, ⟨n + n', ?_⟩, ?_, ?_, ?_, ?_, ?_⟩
  · rw [h'.live, h.live]
  · rw [h'.maps, h.maps]
  · intro m
    rw [h'.P4, h.P4]
  · rw [hn', hn, Nat.mul_add, Nat.add_assoc]
  · intro t ht
    obtain ht | ht := htable ht
    · obtain ht | ht := h.table ht
      · exact Or.inl ht
      · exact Or.inr (List.mem_append_left _ ht)
    · exact Or.inr (List.mem_append_right _ ht)
  · intro q p t i hq hp ht hne
    have hsame := h.kept hq hp ht hne
    rw [← hsame] at hne
    rw [hkept hq hp (Kept.walk h.kept hq (by omega) ht) hne, hsame]
  · intro c hc
    obtain hsame | ⟨f, hf, heq⟩ := h'.own hc
    · rw [hsame]
      obtain hsame | ⟨f, hf, heq⟩ := h.own hc
      · exact Or.inl hsame
      · exact Or.inr ⟨f, List.mem_append_left _ hf, heq⟩
    · exact Or.inr ⟨f, List.mem_append_right _ hf, heq⟩
  · intro q c hq hnot hqr
    have hfirst : ¬ Stepped k.heapBrk k'.heapBrk c := by
      intro hstep
      apply hnot (hstep.mono _)
      rw [hn']
      exact Nat.le_add_right _ _
    have hsecond : ¬ Stepped k'.heapBrk k''.heapBrk c := by
      intro hstep
      rw [hn] at hstep
      exact hnot hstep.add
    rw [hother hq hsecond hqr, h.other hq hfirst hqr]
  · intro t ht howns hmem
    rw [List.mem_append, not_or] at hmem
    have ht' : ¬ IsTable b k.Root k'.machine t := by
      intro htab
      obtain htab | htab := h.table htab
      · exact ht htab
      · exact hmem.1 htab
    have howns' : ¬ Owns (words k'.machine.mem) r t := by
      intro hown
      obtain hown | hown := h.owns hown
      · exact howns hown
      · exact hmem.1 hown
    rw [hwords ht' howns' hmem.2, h.words_eq ht howns hmem.1]

/-- The heap has grown by pages. -/
theorem Ready.heap_eq {fs' : List Nat} (h : Ready b own fs k) (h' : Ready b own fs' k')
    (hle : k.heapBrk ≤ k'.heapBrk) :
  ∃ n, k'.heapBrk = k.heapBrk + pageSize * n
  := by
  refine ⟨(k'.heapBrk - k.heapBrk) / pageSize, ?_⟩
  have hmod := h.heap.2.1
  have hmod' := h'.heap.2.1
  rw [pageSize] at hmod hmod' ⊢
  omega

/-- A call of `procmm_map` for the process. -/
theorem Ready.spends {fs' : List Nat} {start stop : Nat} {a : Option Nat} (h : Ready b own fs k)
    (h' : Ready b own fs' k') (hroot : k.Root r) (hstop : stop ≤ userspaceTop)
    (hkeeps : Keeps b used k k') (hpaged : Paged b r start stop used a k k') :
  Spends b r used k k'
  := by
  refine ⟨hkeeps.live, hkeeps.maps, hkeeps.P4, h.heap_eq h' hkeeps.heap, ?_, ?_, ?_, ?_, ?_⟩
  · exact fun hn => hkeeps.grows.new hn
  · exact hkeeps.grows.kept
  · intro c hc
    by_cases hstep : a ≠ none ∧ Stepped start stop c
    · right
      exact hpaged.page hstep.1 hstep.2
    · left
      apply hpaged.other (Or.inr hroot) (not_stepped_heap h.heap.1 h'.heap.2.2 hc)
      rintro ⟨ha, -, hstep'⟩
      exact hstep ⟨ha, hstep'⟩
  · intro q c hq hnot hqr
    apply hpaged.other hq hnot
    rintro ⟨-, heq, hstep⟩
    exact hstep.user hstop (hqr heq)
  · intro n hn _ hused
    apply hkeeps.grows.words_eq
    intro htable
    obtain htable | htable := hkeeps.grows.new htable
    · exact hn htable
    · exact hused htable

/-- Writing to the pages of the process. -/
theorem Ready.touched {mem : Memory} (h : Ready b own fs k) (hroot : k.Root r)
    (ht : Touches (words k.machine.mem) r k.machine.mem mem) :
  Ready b own fs (k.withMachine (k.machine.withMem mem))
    ∧ Spends b r [] k (k.withMachine (k.machine.withMem mem))
    ∧ ∀ q c, Roots b k.Root q → lookup (words mem) q c = lookup (words k.machine.mem) q c
  := by
  obtain ⟨hsound, hwords, hlookup⟩ := h.sound.touched hroot ht
  have hmem : (k.withMachine (k.machine.withMem mem)).machine.mem = mem := rfl
  have htable : ∀ n, IsTable b k.Root k.machine n → words mem n = words k.machine.mem n :=
    fun n hn => hwords n (Or.inl hn)
  refine ⟨h.of_sound rfl rfl (fun _ => rfl) h.heap hsound, ⟨rfl, rfl, fun _ => rfl, ⟨0, rfl⟩, ?_, ?_,
    ?_, ?_, ?_⟩, hlookup⟩
  · intro n hn
    left
    exact (h.sound.half.toKernelTables.node_congr htable).mp hn
  · intro q p t i hq hp hwalk _
    rw [hmem, htable t ⟨q, p, ⟨hq, by omega⟩, hwalk⟩]
  · intro c _
    left
    rw [hmem, hlookup r c (Or.inr hroot)]
  · intro q c hq _ _
    rw [hmem, hlookup q c hq]
  · intro n _ howns _
    rw [hmem, hwords n (Or.inr (Or.inr howns))]

/-- A change of pointers and lists only. -/
theorem spends_of_machine (hmachine : k'.machine = k.machine) (hlive : k'.live = k.live)
    (hmaps : k'.maps = k.maps) (hP4 : ∀ m, (k'.map m).P4 = (k.map m).P4)
    (hheap : k'.heapBrk = k.heapBrk) :
  Spends b r [] k k'
  := by
  refine ⟨hlive, hmaps, hP4, ⟨0, hheap⟩, ?_, ?_, ?_, ?_, ?_⟩
  · intro n hn
    left
    rw [← hmachine]
    exact hn
  · rw [hmachine]
    exact fun _ _ _ _ => rfl
  · intro c _
    left
    rw [hmachine]
  · intro q c _ _ _
    rw [hmachine]
  · intro n _ _ _
    rw [hmachine]

end Spends

/-! ### An image in the memory of the kernel -/

/-- The `size` bytes at the address `data` of the kernel are neither in the frames `fs` nor in
tables nor in frames of processes, and the heap will not grow over them. -/
structure Image (b : Nat) (fs : List Nat) (data size : Nat) (k : Kernel) : Prop where
  page : ∀ i < size, ∃ f, translate (words k.machine.mem) b (data + i) = some f ∧ f ∉ fs
    ∧ ¬ IsTable b k.Root k.machine f ∧ ¬ Mapped (words k.machine.mem) k.Root f
  apart : ∀ i < size, ¬ Stepped k.heapBrk (2 ^ 64) (data + i)

/-- The kernels have the same image. -/
def SameImage (b data size : Nat) (k k' : Kernel) : Prop :=
  ∀ i < size, kernelMemory (frame b) k'.machine (data + i)
      = kernelMemory (frame b) k.machine (data + i)
    ∧ lookup (words k'.machine.mem) b (data + i) = lookup (words k.machine.mem) b (data + i)
    ∧ ∀ f, translate (words k.machine.mem) b (data + i) = some f →
      translate (words k'.machine.mem) b (data + i) = some f

section Image

variable {b r data size : Nat} {own : Nat → Prop} {used fs : List Nat} {k k' : Kernel}

theorem kernelMemory_eq {s : Machine} {a f : Nat} (h : translate (words s.mem) b a = some f) :
  kernelMemory (frame b) s a = s.mem (frame f + a % pageSize)
  := by
  rw [kernelMemory, frame_div, h]

theorem SameImage.refl :
  SameImage b data size k k
  := fun _ _ => ⟨rfl, rfl, fun _ hf => hf⟩

theorem SameImage.trans {k'' : Kernel} (h : SameImage b data size k k')
    (h' : SameImage b data size k' k'') :
  SameImage b data size k k''
  := by
  intro i hi
  obtain ⟨hbyte, hlookup, htranslate⟩ := h i hi
  obtain ⟨hbyte', hlookup', htranslate'⟩ := h' i hi
  exact ⟨hbyte'.trans hbyte, hlookup'.trans hlookup, fun f hf => htranslate' f (htranslate f hf)⟩

/-- Calls for a process do not change the image. -/
theorem Image.spends (h : Image b (used ++ fs) data size k) (hready : Ready b own (used ++ fs) k)
    (hready' : Ready b own fs k') (hroot : k.Root r) (hspends : Spends b r used k k') :
  Image b fs data size k' ∧ SameImage b data size k k'
  := by
  have hbr : b ≠ r := by
    rintro rfl
    exact hready.sound.half.notBoot hroot
  obtain ⟨n, hn⟩ := hspends.heap
  have hlookup : ∀ i < size, lookup (words k'.machine.mem) b (data + i)
      = lookup (words k.machine.mem) b (data + i) := by
    intro i hi
    apply hspends.other (Or.inl rfl)
    · intro hstep
      exact h.apart i hi (hstep.mono hready'.heap.2.2)
    · exact fun heq => absurd heq hbr
  have htranslate : ∀ i < size, ∀ f, translate (words k.machine.mem) b (data + i) = some f →
      translate (words k'.machine.mem) b (data + i) = some f := by
    intro i hi f hf
    exact hready.sound.half.toKernelTables.translate_kept (Or.inl rfl) hspends.kept (hlookup i hi) hf
  have hfree : ∀ {f}, f ∉ used ++ fs → f ∉ used ∧ f ∉ fs := by
    intro f hf
    rw [List.mem_append, not_or] at hf
    exact hf
  refine ⟨⟨?_, ?_⟩, ?_⟩
  · intro i hi
    obtain ⟨f, hf, hmem, htable, hmapped⟩ := h.page i hi
    refine ⟨f, htranslate i hi f hf, (hfree hmem).2, ?_, ?_⟩
    · rw [hspends.root]
      intro htable'
      obtain htable' | htable' := hspends.table htable'
      · exact htable htable'
      · exact (hfree hmem).1 htable'
    · rintro ⟨q, c, hq, hc, hne, heq⟩
      rw [hspends.root] at hq
      by_cases hqr : q = r
      · rw [hqr] at hne heq
        obtain hsame | ⟨g, hg, hsame⟩ := hspends.own hc
        · rw [hsame] at hne heq
          exact hmapped ⟨r, c, hroot, hc, hne, heq⟩
        · rw [hsame, (userFlags_entry g).2] at heq
          rw [heq] at hmem
          exact (hfree hmem).1 hg
      · have hstep := not_stepped_heap hready.heap.1 hready'.heap.2.2 hc
        rw [hspends.other (Or.inr hq) hstep (fun heq => absurd heq hqr)] at hne heq
        exact hmapped ⟨q, c, hq, hc, hne, heq⟩
  · intro i hi hstep
    rw [hn] at hstep
    exact h.apart i hi hstep.add
  · intro i hi
    obtain ⟨f, hf, hmem, htable, hmapped⟩ := h.page i hi
    refine ⟨?_, hlookup i hi, htranslate i hi⟩
    rw [kernelMemory_eq hf, kernelMemory_eq (htranslate i hi f hf)]
    apply bytes_of_words
    have hdiv : (frame f + (data + i) % pageSize) / pageSize = f := by
      rw [frame, Nat.mul_add_div (by decide), Nat.div_eq_of_lt (Nat.mod_lt _ (by decide)),
        Nat.add_zero]
    rw [hdiv]
    apply hspends.words_eq htable _ (hfree hmem).1
    rintro ⟨c, hc, hne, heq⟩
    exact hmapped ⟨r, c, hroot, hc, hne, heq⟩

end Image

end Procmm
