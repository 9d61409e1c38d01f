import Mittos64.Proc.Args
import Mittos64.Proc.Load

/-!
# Setting up a process with an executable

`exec_elf` loads the segments, sets up the break and the stack, and writes the arguments to the
pages of the break.  It writes them through the page tables of the process: all of the pages are
there, and the memory of the process is the block of the arguments afterwards.  No byte from the
last one before the break on is written.
-/

open DList

namespace Procmm

open Mem

/-! ### Writing the arguments -/

/-- The pages of the `n` addresses from `a` on are pages of the user. -/
def UserPages (T : Words) (r a n : Nat) : Prop :=
  ∀ i < n, ∃ f < 2 ^ 40, lookup T r (a + i) = addFlags (frame f) userFlags

/-- The process with the P4 `q` can write to the `n` addresses from `a` on, and finds the bytes of
`v` there. -/
structure Writable (b : Nat) (own live : Nat → Prop) (fs : List Nat) (q a n : Nat) (v : Memory)
    (s : Machine) : Prop where
  sound : Sound b own live fs s
  own : own q
  top : a + n ≤ userspaceTop
  pages : UserPages (words s.mem) q a n
  view : ∀ x, a ≤ x → x < a + n → byteAt s q x = v x

/-- The bytes `v` have been written to the `n` addresses from `a` on. -/
structure Wrote (b : Nat) (own live : Nat → Prop) (fs : List Nat) (q a n : Nat) (v : Memory)
    (s s' : Machine) : Prop where
  writable : Writable b own live fs q a n v s'
  mem : ∃ mem, s' = s.withMem mem ∧ Within (words s.mem) q a n s.mem mem
  lookup : ∀ r c, Roots b live r → lookup (words s'.mem) r c = lookup (words s.mem) r c

section Write

variable {b q a n : Nat} {own live : Nat → Prop} {fs : List Nat} {v v' : Memory}
  {s s' s'' : Machine}

theorem Writable.refl (h : Writable b own live fs q a n v s) :
  Wrote b own live fs q a n v s s
  := ⟨h, ⟨s.mem, rfl, fun _ _ => rfl⟩, fun _ _ _ => rfl⟩

/-- Two writes one after the other. -/
theorem Wrote.trans (h : Wrote b own live fs q a n v s s')
    (h' : Wrote b own live fs q a n v' s' s'') :
  Wrote b own live fs q a n v' s s''
  := by
  obtain ⟨mem, rfl, hw⟩ := h.mem
  obtain ⟨mem', rfl, hw'⟩ := h'.mem
  have hlive := h.writable.sound.owned h.writable.own
  refine ⟨h'.writable, ⟨mem', rfl, hw.trans ?_⟩, ?_⟩
  · exact hw'.congr fun c => (h.lookup q c (Or.inr hlive)).symm
  · intro r c hr
    rw [h'.lookup r c hr, h.lookup r c hr]

/-- The processor finds the pages of the user. -/
theorem Writable.translate (h : Writable b own live fs q a n v s) {x : Nat} (hx : a ≤ x)
    (hx' : x < a + n) :
  ∃ f, translate (words s.mem) q x = some f ∧ lookup (words s.mem) q x = addFlags (frame f) userFlags
  := by
  have htop := h.top
  obtain ⟨f, hf, hlookup⟩ := h.pages (x - a) (by omega)
  rw [Nat.add_sub_cancel' hx] at hlookup
  have hdiv := (userFlags_entry f).2
  refine ⟨f, ?_, hlookup⟩
  rw [h.sound.half.toKernelTables.translate_eq (Or.inr (h.sound.owned h.own)) h.sound.present
    (user_ne_kernel (by omega)).2, hlookup, frameOf_eq, hdiv]
  · rw [hdiv]
    exact hf
  · rw [hlookup]
    exact isPresent_addFlags f rfl

/-- One byte is written to the page that the processor finds. -/
theorem Writable.byte (h : Writable b own live fs q a n v s) {c : Nat} (w : UInt8) (hle : a ≤ c)
    (hlt : c < a + n) :
  ∃ f, Mem.translate (words s.mem) q c = some f
    ∧ Wrote b own live fs q a n (v.write c [w]) s
        (s.withMem (s.mem.write (frame f + c % pageSize) [w]))
  := by
  have htop := h.top
  have hlive := h.sound.owned h.own
  have hne : ∀ x, a ≤ x → x < a + n → lookup (words s.mem) q x ≠ 0 := by
    intro x hx hx'
    obtain ⟨g, -, hg⟩ := h.translate hx hx'
    rw [hg]
    exact (userFlags_entry g).1
  obtain ⟨f, htranslate, hlookup⟩ := h.translate hle hlt
  have hplace : frame f + c % pageSize = place (words s.mem) q c := by
    rw [place, hlookup, (userFlags_entry f).2]
  refine ⟨f, htranslate, ?_⟩
  rw [hplace]
  have hbyte : ∀ x, x ≠ place (words s.mem) q c →
      s.mem.write (place (words s.mem) q c) [w] x = s.mem x := by
    intro x hx
    apply Memory.write_of_notMem
    rw [List.length_singleton]
    omega
  have hw : Within (words s.mem) q a n s.mem (s.mem.write (place (words s.mem) q c) [w]) := by
    intro x hx
    apply hbyte
    have hne := hx (c - a) (by omega)
    rw [Nat.add_sub_cancel' hle] at hne
    exact hne
  have htouch : Touches (words s.mem) q s.mem (s.mem.write (place (words s.mem) q c) [w]) :=
    hw.touches htop fun i hi => hne (a + i) (Nat.le_add_right _ _) (by omega)
  obtain ⟨hsound, -, hsame⟩ := h.sound.touched hlive htouch
  refine ⟨⟨hsound, h.own, htop, ?_, ?_⟩, ⟨_, rfl, hw⟩, hsame⟩
  · intro i hi
    rw [Machine.withMem_mem, hsame q _ (Or.inr hlive)]
    exact h.pages i hi
  · intro x hx hx'
    have hplace' : place (words (s.mem.write (place (words s.mem) q c) [w])) q x
        = place (words s.mem) q x := place_congr (hsame q x (Or.inr hlive))
    rw [byteAt, Machine.withMem_mem, hplace']
    by_cases hxc : x = c
    · rw [hxc]
      simp [Memory.write]
    · rw [hbyte, Memory.write_of_notMem]
      · exact h.view x hx hx'
      · rw [List.length_singleton]
        omega
      · intro heq
        exact hxc (h.sound.place_inj h.own hlive (by omega) (by omega) (hne x hx hx') (hne c hle hlt)
          heq).2

/-- Bytes are written to the memory of the process. -/
theorem Writable.userWrite {c : Nat} {l : List UInt8} (h : Writable b own live fs q a n v s)
    (hle : a ≤ c) (hend : c + l.length ≤ a + n) :
  ∃ s', userWrite (frame q) s c l = some s' ∧ Wrote b own live fs q a n (v.write c l) s s'
  := by
  induction l generalizing c v s with
  | nil =>
      refine ⟨s, rfl, ⟨h.sound, h.own, h.top, h.pages, ?_⟩, h.refl.mem, h.refl.lookup⟩
      intro x hx hx'
      rw [h.view x hx hx', Memory.write_of_notMem]
      rw [List.length_nil]
      omega
  | cons w l ih =>
      rw [List.length_cons] at hend
      have htop := h.top
      obtain ⟨f, htranslate, hwrote⟩ := h.byte w hle (by omega)
      have hinc : incptr c 1 = c + 1 := by
        apply incptr_of_lt
        rw [userspaceTop] at htop
        omega
      obtain ⟨s', heq, hwrote'⟩ := @ih _ _ (c + 1) hwrote.writable (by omega) (by omega)
      have hsplit : v.write c (w :: l) = (v.write c [w]).write (c + 1) l :=
        Memory.write_append v c [w] l
      rw [hsplit]
      refine ⟨s', ?_, hwrote.trans hwrote'⟩
      rw [Procmm.userWrite, frame_div, htranslate]
      dsimp only
      rw [hinc, heq]

theorem pointerBytes_length (p : Nat) :
  (pointerBytes p).length = 8
  := by
  rw [pointerBytes, List.length_map, List.length_range]

/-- The loops that copy the strings. -/
theorem Writable.copyStrings {array pos : Nat} {strs : List (List UInt8)}
    (h : Writable b own live fs q a n v s) (hle : a ≤ array)
    (hend : array + 8 * strs.length ≤ a + n) (hle' : a ≤ pos)
    (hend' : pos + stringsLength strs ≤ a + n) :
  ∃ s', copyStrings (frame q) s array pos strs = some (pos + stringsLength strs, s')
    ∧ Wrote b own live fs q a n (putStrings v array pos strs) s s'
  := by
  induction strs generalizing array pos v s with
  | nil => exact ⟨s, rfl, h.refl⟩
  | cons str strs ih =>
      rw [List.length_cons] at hend
      rw [stringsLength_cons] at hend' ⊢
      have htop := h.top
      rw [userspaceTop] at htop
      obtain ⟨s₁, heq₁, hw₁⟩ := @Writable.userWrite b q a n own live fs v s array (pointerBytes pos)
        h hle (by rw [pointerBytes_length]; omega)
      obtain ⟨s₂, heq₂, hw₂⟩ := @Writable.userWrite b q a n own live fs _ s₁ pos (str ++ [0])
        hw₁.writable hle' (by rw [List.length_append, List.length_singleton]; omega)
      have hinc : incptr array 8 = array + 8 := incptr_of_lt (by omega)
      have hinc' : incptr pos (str.length + 1) = pos + (str.length + 1) := incptr_of_lt (by omega)
      obtain ⟨s₃, heq₃, hw₃⟩ := @ih _ s₂ (array + 8) (pos + (str.length + 1)) hw₂.writable
        (by omega) (by omega) (by omega) (by omega)
      refine ⟨s₃, ?_, (hw₁.trans hw₂).trans hw₃⟩
      rw [Procmm.copyStrings, heq₁]
      dsimp only
      rw [heq₂]
      dsimp only
      rw [hinc, hinc', heq₃, Nat.add_assoc]

/-- `exec_elf` writes the arguments. -/
theorem Writable.writeArguments {argv envp : List (List UInt8)}
    (h : Writable b own live fs q a n v s) (hn : argLength argv envp ≤ n + 1) :
  ∃ s', writeArguments (frame q) s a argv envp = some s'
    ∧ Wrote b own live fs q a n (putArguments v a argv envp) s s'
  := by
  rw [argLength_eq] at hn
  have htop := h.top
  rw [userspaceTop] at htop
  have henvp : incptr a ((argv.length + 1) * 8) = a + (argv.length + 1) * 8 :=
    incptr_of_lt (by omega)
  have hauxv : incptr (a + (argv.length + 1) * 8) ((envp.length + 1) * 8)
      = a + (argv.length + 1) * 8 + (envp.length + 1) * 8 := incptr_of_lt (by omega)
  have hpos : incptr (a + (argv.length + 1) * 8 + (envp.length + 1) * 8) (2 * 8)
      = a + (argv.length + 1) * 8 + (envp.length + 1) * 8 + 2 * 8 := incptr_of_lt (by omega)
  have hend : incptr a (argv.length * 8) = a + argv.length * 8 := incptr_of_lt (by omega)
  have hend' : incptr (a + (argv.length + 1) * 8) (envp.length * 8)
      = a + (argv.length + 1) * 8 + envp.length * 8 := incptr_of_lt (by omega)
  rw [Procmm.writeArguments, henvp, hauxv, hpos, hend, hend']
  -- the arguments
  obtain ⟨s₁, heq₁, hw₁⟩ := @Writable.copyStrings b q a n own live fs v s a
    (a + (argv.length + 1) * 8 + (envp.length + 1) * 8 + 2 * 8) argv h (Nat.le_refl _) (by omega)
    (by omega) (by omega)
  obtain ⟨s₂, heq₂, hw₂⟩ := @Writable.userWrite b q a n own live fs _ s₁ (a + argv.length * 8)
    (pointerBytes 0) hw₁.writable (by omega) (by rw [pointerBytes_length]; omega)
  rw [heq₁]
  dsimp only
  rw [heq₂]
  dsimp only
  -- the environment
  obtain ⟨s₃, heq₃, hw₃⟩ := @Writable.copyStrings b q a n own live fs _ s₂
    (a + (argv.length + 1) * 8)
    (a + (argv.length + 1) * 8 + (envp.length + 1) * 8 + 2 * 8 + stringsLength argv) envp
    hw₂.writable (by omega) (by omega) (by omega) (by omega)
  obtain ⟨s₄, heq₄, hw₄⟩ := @Writable.userWrite b q a n own live fs _ s₃
    (a + (argv.length + 1) * 8 + envp.length * 8) (pointerBytes 0) hw₃.writable (by omega)
    (by rw [pointerBytes_length]; omega)
  rw [heq₃]
  dsimp only
  rw [heq₄]
  dsimp only
  -- the first of the auxiliary vectors
  obtain ⟨s₅, heq₅, hw₅⟩ := @Writable.userWrite b q a n own live fs _ s₄
    (a + (argv.length + 1) * 8 + (envp.length + 1) * 8) (pointerBytes 0) hw₄.writable (by omega)
    (by rw [pointerBytes_length]; omega)
  have hw₁₂ := hw₁.trans hw₂
  have hw₁₃ := hw₁₂.trans hw₃
  have hw₁₄ := hw₁₃.trans hw₄
  exact ⟨s₅, heq₅, hw₁₄.trans hw₅⟩

end Write

/-! ### Segments in ascending order -/

/-- The map `m` has the areas `zs`, one above the other, which end at addresses in `E`, and all its
pages belong to them. -/
structure Laid (b : Nat) (own : Nat → Prop) (r m : Nat) (E : Nat → Prop) (fs zs : List Nat)
    (k : Kernel) : Prop where
  ready : Ready b own fs k
  live : k.live m = true
  P4 : (k.map m).P4 = frame r
  list : AreaList k m zs
  ends : ∀ z ∈ zs, E (k.area z).stop
  pages : ∀ c, p4Offset c ≠ 511 → lookup (words k.machine.mem) r c ≠ 0 →
    ∃ z ∈ zs, Stepped (k.area z).start (k.area z).stop c

/-- The kernel `k'` is the kernel `k` after loading segments: it has used the frames `used`, the
heap has grown by `n` pages, and `l` areas have been allocated. -/
structure Took (b r : Nat) (used : List Nat) (n l : Nat) (k k' : Kernel) : Prop where
  spends : Spends b r used k k'
  heap : k'.heapBrk = k.heapBrk + pageSize * n
  areas : k'.areas = k.areas + l

section Laid

variable {b r m data : Nat} {own E : Nat → Prop} {fs zs : List Nat} {grow : Nat → Nat}
  {k k' : Kernel} {p : PHead}

/-- A segment above the areas fits in the list, if only because it is refused. -/
theorem PHead.fits (hle : ∀ z ∈ zs, (k.area z).start ≤ p.virtualAddress) :
  Fits k.area zs p.virtualAddress (p.virtualAddress + p.memSize)
  := ⟨Nat.le_add_right _ _, Or.inr fun z hz => Nat.le_trans (hle z hz) (Nat.le_add_right _ _)⟩

/-- Loading a segment that returns. -/
theorem Laid.loadElfSegment (h : Laid b own r m E fs zs k) (hp : p.Loadable)
    (hend : E (p.virtualAddress + p.memSize))
    (hle : ∀ z ∈ zs, (k.area z).start ≤ p.virtualAddress)
    (hcall : loadElfSegment (frame b) grow k m data p = some k') :
  ∃ used fs' zs', fs = used ++ fs'
    ∧ used.length ≤ 4 * (k.demand grow + turns p.virtualAddress (p.virtualAddress + p.memSize))
    ∧ Laid b own r m E fs' zs' k' ∧ Took b r used (k.demand grow) 1 k k'
    ∧ (∀ z ∈ zs', (k'.area z).start ≤ p.virtualAddress) ∧ zs' ≠ []
  := by
  have hroot : k.Root r := ⟨m, h.live, h.P4⟩
  rw [loadElfSegment_eq hp] at hcall
  obtain ⟨⟨a, k₁⟩, hmap, rfl⟩ := Option.map_eq_some_iff.mp hcall
  have hfits := PHead.fits hle
  obtain ⟨a', k₁', used, fs', rfl, hused, hmap', hready₁, hkeeps, hpaged, hheap, hnone⟩ |
      ⟨-, hnone⟩ :=
    h.ready.procmmMap h.list h.live h.P4 hfits hp.2 (procmmMap_room hmap h.ready.heap.2.2) 0
  · rw [hmap] at hmap'
    obtain ⟨rfl, rfl⟩ := Prod.mk.inj (Option.some.inj hmap')
    obtain ⟨hlist₁, hold, hnew, hareas, -, -⟩ := h.list.procmmMap hfits hmap
    have hspends₁ := h.ready.spends hready₁ hroot hp.2 hkeeps hpaged
    have hlive₁ : k₁.live m = true := by
      rw [hkeeps.live]
      exact h.live
    have hP4₁ : (k₁.map m).P4 = frame r := by
      rw [hkeeps.P4]
      exact h.P4
    obtain ⟨s, hs, hready₂, hspends₂, hlookup⟩ := @Ready.fill_spends b r m data own fs' k₁ p hready₁
      hlive₁ hP4₁ hp
    have hareas' : k₁.areas ≤ (k₁.withMachine s).areas := Nat.le_refl _
    have hlist₂ : AreaList (k₁.withMachine s) m (zs ++ a.toList) :=
      hlist₁.congr hareas' rfl (fun _ _ => rfl) (fun _ _ => rfl)
    have hmem : ∀ {z}, z ∈ zs ++ a.toList → z ∈ zs ∧ k₁.area z = k.area z
        ∨ z ∈ a ∧ k₁.area z = ⟨p.virtualAddress, p.virtualAddress + p.memSize, 0, m⟩ := by
      intro z hz
      obtain hz | hz := List.mem_append.mp hz
      · exact Or.inl ⟨hz, hold z (h.list.lt z hz)⟩
      · rw [Option.mem_toList] at hz
        exact Or.inr ⟨hz, (hnew z hz).2⟩
    dsimp only
    rw [hs]
    have hspends := hspends₁.trans hspends₂
    rw [List.append_nil] at hspends
    refine ⟨used, fs', zs ++ a.toList, rfl, hused, ⟨hready₂, hlive₁, hP4₁, hlist₂, ?_, ?_⟩,
      ⟨hspends, hheap, hareas⟩, ?_, ?_⟩
    · intro z hz
      rw [Kernel.withMachine_area]
      obtain ⟨hz, heq⟩ | ⟨-, heq⟩ := hmem hz
      · rw [heq]
        exact h.ends z hz
      · rw [heq]
        exact hend
    · intro c hc hne
      rw [Kernel.withMachine_machine, hlookup] at hne
      by_cases hstep : a ≠ none ∧ Stepped p.virtualAddress (p.virtualAddress + p.memSize) c
      · obtain ⟨z, rfl⟩ := Option.ne_none_iff_exists'.mp hstep.1
        refine ⟨z, List.mem_append_right _ (by simp), ?_⟩
        rw [Kernel.withMachine_area, (hnew z rfl).2]
        exact hstep.2
      · rw [hpaged.other (Or.inr hroot)
          (not_stepped_heap h.ready.heap.1 hready₁.heap.2.2 hc)
          (fun hand => hstep ⟨hand.1, hand.2.2⟩)] at hne
        obtain ⟨z, hz, hstep⟩ := h.pages c hc hne
        refine ⟨z, List.mem_append_left _ hz, ?_⟩
        rw [Kernel.withMachine_area, hold z (h.list.lt z hz)]
        exact hstep
    · intro z hz
      rw [Kernel.withMachine_area]
      obtain ⟨hz, heq⟩ | ⟨-, heq⟩ := hmem hz
      · rw [heq]
        exact hle z hz
      · rw [heq]
    · cases zs with
      | nil =>
          cases a with
          | none =>
              obtain ⟨o, ho, -⟩ := hnone.mp rfl
              nomatch ho
          | some a => simp
      | cons z zs => exact List.cons_ne_nil _ _
  · rw [hmap] at hnone
    nomatch hnone

/-- Loading a segment returns, when there are frames for it. -/
theorem Laid.exists_loadElfSegment (h : Laid b own r m E fs zs k) (hp : p.Loadable)
    (hle : ∀ z ∈ zs, (k.area z).start ≤ p.virtualAddress)
    (hroom : k.heapBrk + pageSize * k.demand grow ≤ 2 ^ 64)
    (hlen : 4 * (k.demand grow + turns p.virtualAddress (p.virtualAddress + p.memSize))
      ≤ fs.length) :
  ∃ k', Procmm.loadElfSegment (frame b) grow k m data p = some k'
  := by
  obtain ⟨a, k', used, fs', -, -, hmap, -⟩ | ⟨hlt, -⟩ :=
    h.ready.procmmMap h.list h.live h.P4 (PHead.fits hle) hp.2 hroom 0
  · rw [loadElfSegment_eq hp, hmap]
    exact ⟨_, rfl⟩
  · omega

theorem Took.trans {k'' : Kernel} {used used' : List Nat} {n n' l l' : Nat}
    (h : Took b r used n l k k') (h' : Took b r used' n' l' k' k'') :
  Took b r (used ++ used') (n + n') (l + l') k k''
  := by
  refine ⟨h.spends.trans h'.spends, ?_, ?_⟩
  · rw [h'.heap, h.heap, Nat.mul_add, Nat.add_assoc]
  · rw [h'.areas, h.areas, Nat.add_assoc]

/-- The segments stand in ascending order. -/
def AscendingSegments (ps : List PHead) : Prop :=
  ps.Pairwise fun p q => p.virtualAddress ≤ q.virtualAddress

/-- The frames for one segment and for the others. -/
theorem loadFrames_cons {ps : List PHead} {k₁ : Kernel} (hareas : k₁.areas = k.areas + 1)
    (hmaps : k₁.maps = k.maps) :
  loadFrames grow k (p :: ps)
      = 4 * (k.demand grow + turns p.virtualAddress (p.virtualAddress + p.memSize))
        + loadFrames grow k₁ ps
    ∧ heapPages grow (k.areas + k.maps) (p :: ps).length
      = k.demand grow + heapPages grow (k₁.areas + k₁.maps) ps.length
  := by
  have hcount : k.areas + k.maps + 1 = k₁.areas + k₁.maps := by omega
  rw [loadFrames, loadFrames, segmentPages, segmentPages, List.map_cons, List.sum_cons,
    List.length_cons, heapPages, Kernel.demand, hcount]
  refine ⟨?_, rfl⟩
  omega

/-- Loading segments in ascending order. -/
theorem Laid.loadAll {ps : List PHead} (h : Laid b own r m E fs zs k)
    (hps : ∀ p ∈ ps, p.Loadable ∧ E (p.virtualAddress + p.memSize))
    (hasc : AscendingSegments ps) (hle : ∀ p ∈ ps, ∀ z ∈ zs, (k.area z).start ≤ p.virtualAddress)
    (hcall : loadAll (frame b) grow m data k ps = some k') :
  ∃ used fs' zs', fs = used ++ fs' ∧ used.length ≤ loadFrames grow k ps
    ∧ Laid b own r m E fs' zs' k'
    ∧ Took b r used (heapPages grow (k.areas + k.maps) ps.length) ps.length k k'
    ∧ (zs' = [] → zs = [] ∧ ps = [])
  := by
  induction ps generalizing fs zs k with
  | nil =>
      obtain rfl := Option.some.inj hcall
      exact ⟨[], fs, zs, rfl, Nat.zero_le _, h, ⟨Spends.refl, rfl, rfl⟩, fun hzs => ⟨hzs, rfl⟩⟩
  | cons p ps ih =>
      rw [List.forall_mem_cons] at hps hle
      obtain ⟨hbelow, hasc⟩ := List.pairwise_cons.mp hasc
      rw [Procmm.loadAll] at hcall
      split at hcall
      · cases hcall
      · rename_i k₁ hload
        obtain ⟨used, fs₁, zs₁, rfl, hused, h₁, htook, hle₁, hne⟩ :=
          h.loadElfSegment hps.1.1 hps.1.2 hle.1 hload
        have hle' : ∀ q ∈ ps, ∀ z ∈ zs₁, (k₁.area z).start ≤ q.virtualAddress :=
          fun q hq z hz => Nat.le_trans (hle₁ z hz) (hbelow q hq)
        obtain ⟨used', fs', zs', rfl, hused', h', htook', hne'⟩ := ih h₁ hps.2 hasc hle' hcall
        obtain ⟨hframes, hheap⟩ := @loadFrames_cons grow k p ps k₁ htook.areas htook.spends.maps
        refine ⟨used ++ used', fs', zs', by rw [List.append_assoc], ?_, h', ?_, ?_⟩
        · rw [List.length_append, hframes]
          omega
        · rw [hheap, List.length_cons, Nat.add_comm ps.length]
          exact htook.trans htook'
        · intro hzs
          exact absurd (hne' hzs).1 hne

/-- Loading segments in ascending order returns, when there are frames for them. -/
theorem Laid.exists_loadAll {ps : List PHead} (h : Laid b own r m E fs zs k)
    (hps : ∀ p ∈ ps, p.Loadable ∧ E (p.virtualAddress + p.memSize)) (hasc : AscendingSegments ps)
    (hle : ∀ p ∈ ps, ∀ z ∈ zs, (k.area z).start ≤ p.virtualAddress)
    (hroom : k.heapBrk + pageSize * heapPages grow (k.areas + k.maps) ps.length ≤ 2 ^ 64)
    (hlen : loadFrames grow k ps ≤ fs.length) :
  ∃ k', Procmm.loadAll (frame b) grow m data k ps = some k'
  := by
  induction ps generalizing fs zs k with
  | nil => exact ⟨k, rfl⟩
  | cons p ps ih =>
      rw [List.forall_mem_cons] at hps hle
      obtain ⟨hbelow, hasc⟩ := List.pairwise_cons.mp hasc
      obtain ⟨k₁, hload⟩ : ∃ k₁, Procmm.loadElfSegment (frame b) grow k m data p = some k₁ := by
        have hsplit := @loadFrames_cons grow k p ps { k with areas := k.areas + 1 } rfl rfl
        rw [hsplit.1] at hlen
        rw [hsplit.2, Nat.mul_add] at hroom
        apply h.exists_loadElfSegment hps.1.1 hle.1
        · omega
        · omega
      obtain ⟨used, fs₁, zs₁, rfl, hused, h₁, htook, hle₁, -⟩ :=
        h.loadElfSegment hps.1.1 hps.1.2 hle.1 hload
      obtain ⟨hframes, hheap⟩ := @loadFrames_cons grow k p ps k₁ htook.areas htook.spends.maps
      rw [hframes, List.length_append] at hlen
      rw [hheap, Nat.mul_add] at hroom
      obtain ⟨k', hall⟩ := ih h₁ hps.2 hasc
        (fun q hq z hz => Nat.le_trans (hle₁ z hz) (hbelow q hq))
        (by rw [htook.heap]; omega) (by omega)
      exact ⟨k', by rw [Procmm.loadAll, hload]; exact hall⟩

end Laid

/-! ### The parts of `exec_elf` -/

/-- What a call of `exec_elf` that returns has done. -/
theorem execElf_cases {bootP4 m image : Nat} {grow : Nat → Nat} {argv envp : List (List UInt8)}
    {k k' : Kernel} {th : ElfThread}
    (h : execElf bootP4 grow k m image argv envp = some (th, k')) :
  ∃ k₁ start k₂ brk s, loadElf bootP4 grow k m image = some (th.rip, k₁)
    ∧ procmmSetup bootP4 grow k₁ m (argLength argv envp) = some (start, k₂)
    ∧ (k₂.map m).brk = some brk
    ∧ writeArguments (k₂.map m).P4 k₂.machine (k₂.area brk).start argv envp = some s
    ∧ k' = k₂.withMachine s ∧ th.rsi = (k₂.area brk).start ∧ th.rdi = argv.length
  := by
  rw [execElf] at h
  split at h
  · nomatch h
  · rename_i entry k₁ hload
    split at h
    · nomatch h
    · rename_i start k₂ hsetup
      split at h
      · nomatch h
      · rename_i brk hbrk
        dsimp only at h
        split at h
        · nomatch h
        · rename_i s hwrite
          obtain ⟨rfl, rfl⟩ := Prod.mk.inj (Option.some.inj h)
          exact ⟨k₁, start, k₂, brk, s, hload, hsetup, hbrk, hwrite, rfl, rfl, rfl⟩

/-- The map `m` with the P4 `r` is empty, and there is an image at the address `data` of the
kernel. -/
structure Prepared (b : Nat) (own : Nat → Prop) (r m : Nat) (fs : List Nat) (data size : Nat)
    (k : Kernel) : Prop where
  ready : Ready b own fs k
  own : own r
  live : k.live m = true
  P4 : (k.map m).P4 = frame r
  fresh : (k.map m).areas = nil
  empty : ∀ c, p4Offset c ≠ 511 → lookup (words k.machine.mem) r c = 0
  image : Image b fs data size k
  headers : Headers (kernelMemory (frame b) k.machine) data size

section Exec

variable {b r m data size : Nat} {own : Nat → Prop} {fs zs : List Nat} {grow : Nat → Nat}
  {argv envp : List (List UInt8)} {k k' k₁ k₂ : Kernel} {th : ElfThread}

/-- Without a segment in the map, `procmm_setup` follows a null pointer. -/
theorem Prepared.accepted {entry size' : Nat} {x : Nat × Kernel}
    (h : Prepared b own r m fs data size k)
    (hload : loadElf (frame b) grow k m data = some (entry, k₁))
    (hsetup : procmmSetup (frame b) grow k₁ m size' = some x) :
  (elfHeader (kernelMemory (frame b) k.machine) data).identity = elfMagic
    ∧ (elfHeader (kernelMemory (frame b) k.machine) data).type = elfTypeExecutable
  := by
  have hne : k₁ ≠ k := by
    rintro rfl
    rw [procmmSetup, h.fresh] at hsetup
    cases hsetup
  rw [Procmm.loadElf] at hload
  split_ifs at hload with hmagic htype
  · obtain ⟨-, rfl⟩ := Prod.mk.inj (Option.some.inj hload)
    exact absurd rfl hne
  · obtain ⟨-, rfl⟩ := Prod.mk.inj (Option.some.inj hload)
    exact absurd rfl hne
  · exact ⟨not_not.mp hmagic, not_not.mp htype⟩

/-- A fresh map has no areas and no pages. -/
theorem Prepared.laid {E : Nat → Prop} (h : Prepared b own r m fs data size k) :
  Laid b own r m E fs [] k
  := by
  refine ⟨h.ready, h.live, h.P4, ⟨?_, nofun, nofun, List.Pairwise.nil⟩, nofun, ?_⟩
  · rw [h.fresh]
    exact Represents.empty
  · intro c hc hne
    exact absurd (h.empty c hc) hne

/-- The segments of the image are loaded, when `procmm_setup` returns after that. -/
theorem Prepared.loadElf {entry size' : Nat} {x : Nat × Kernel}
    (h : Prepared b own r m fs data size k)
    (hps : ∀ p ∈ segments (kernelMemory (frame b) k.machine) data, p.Loadable)
    (hload : loadElf (frame b) grow k m data = some (entry, k₁))
    (hsetup : procmmSetup (frame b) grow k₁ m size' = some x) :
  loadAll (frame b) grow m data k (segments (kernelMemory (frame b) k.machine) data) = some k₁
  := by
  obtain ⟨hmagic, htype⟩ := h.accepted hload hsetup
  rw [h.ready.loadElf_eq h.live h.P4 h.image h.headers hps hmagic htype] at hload
  obtain ⟨k', hall, heq⟩ := Option.map_eq_some_iff.mp hload
  rw [hall, (Prod.mk.inj heq).2]

/-- The arguments can be written to an area that starts at a page. -/
theorem Ready.writable {start n : Nat} (h : Ready b own fs k) (hown : own r)
    (haligned : start % pageSize = 0) (htop : start + n ≤ userspaceTop)
    (hpages : ∀ {c}, Stepped start (start + n) c → ∃ f < 2 ^ 40,
      lookup (words k.machine.mem) r c = addFlags (frame f) userFlags) :
  Writable b own k.Root fs r start n (byteAt k.machine r) k.machine
  := by
  refine ⟨h.sound, hown, htop, ?_, fun _ _ _ => rfl⟩
  intro i hi
  apply hpages
  rw [stepped_iff haligned htop (by omega)]
  have hle := Nat.div_mul_le_self (start + i) pageSize
  rw [stripFlags]
  rw [pageSize] at hle ⊢
  omega

/-- `exec_elf` writes the arguments to the area of the break. -/
theorem Ready.writeArguments {start n : Nat} (h : Ready b own fs k) (hown : own r)
    (hP4 : (k.map m).P4 = frame r) (haligned : start % pageSize = 0)
    (htop : start + n ≤ userspaceTop) (hn : argLength argv envp ≤ n + 1)
    (hpages : ∀ {c}, Stepped start (start + n) c → ∃ f < 2 ^ 40,
      lookup (words k.machine.mem) r c = addFlags (frame f) userFlags) :
  ∃ mem, Procmm.writeArguments (k.map m).P4 k.machine start argv envp
      = some (k.machine.withMem mem)
    ∧ Ready b own fs (k.withMachine (k.machine.withMem mem))
    ∧ Within (words k.machine.mem) r start n k.machine.mem mem
    ∧ (∀ q c, Roots b k.Root q → lookup (words mem) q c = lookup (words k.machine.mem) q c)
    ∧ ∀ x, start ≤ x → x < start + n →
        byteAt (k.machine.withMem mem) r x = putArguments (byteAt k.machine r) start argv envp x
  := by
  have hwritable := h.writable hown haligned htop hpages
  obtain ⟨s, heq, hwrote⟩ := hwritable.writeArguments hn
  obtain ⟨mem, rfl, hwithin⟩ := hwrote.mem
  refine ⟨mem, ?_, ?_, hwithin, hwrote.lookup, hwrote.writable.view⟩
  · rw [hP4]
    exact heq
  · exact h.of_sound rfl rfl (fun _ => rfl) h.heap hwrote.writable.sound

/-- The end of a segment. -/
def EndOf (ps : List PHead) (e : Nat) : Prop :=
  ∃ p ∈ ps, e = p.virtualAddress + p.memSize

/-- The areas of the segments, when they stand in ascending order. -/
theorem Prepared.loaded (h : Prepared b own r m fs data size k)
    (hps : ∀ p ∈ segments (kernelMemory (frame b) k.machine) data, p.Loadable)
    (hasc : AscendingSegments (segments (kernelMemory (frame b) k.machine) data))
    (hload : Procmm.loadAll (frame b) grow m data k
      (segments (kernelMemory (frame b) k.machine) data) = some k₁) :
  ∃ used fs' zs, fs = used ++ fs'
    ∧ used.length ≤ loadFrames grow k (segments (kernelMemory (frame b) k.machine) data)
    ∧ Laid b own r m (EndOf (segments (kernelMemory (frame b) k.machine) data)) fs' zs k₁
    ∧ Took b r used (heapPages grow (k.areas + k.maps)
        (segments (kernelMemory (frame b) k.machine) data).length)
        (segments (kernelMemory (frame b) k.machine) data).length k k₁
    ∧ (zs = [] → segments (kernelMemory (frame b) k.machine) data = [])
  := by
  have hlaid := @Prepared.laid b r m data size own fs k
    (EndOf (segments (kernelMemory (frame b) k.machine) data)) h
  obtain ⟨used, fs', zs, hfs, hused, hlaid', htook, hne⟩ :=
    hlaid.loadAll (fun p hp => ⟨hps p hp, p, hp, rfl⟩) hasc nofun hload
  exact ⟨used, fs', zs, hfs, hused, hlaid', htook, fun hzs => (hne hzs).2⟩

/-- A process after `exec_elf`: the areas of the break and of the stack, one after the other behind
those of the program, the pages of the break in frames of `fs`, and no page above them. -/
structure Executed (b : Nat) (own : Nat → Prop) (r m len : Nat) (fs fs' : List Nat) (start : Nat)
    (k' : Kernel) : Prop where
  ready : Ready b own fs' k'
  live : k'.live m = true
  P4 : (k'.map m).P4 = frame r
  list : ∃ zs brk, AreaList k' m (zs ++ [brk, brk + 1]) ∧ (k'.map m).brk = some brk
    ∧ k'.area brk = ⟨start, start + len, 0, m⟩ ∧ (k'.map m).stack = some (brk + 1)
    ∧ k'.area (brk + 1) = ⟨userspaceTop, userspaceTop, 0, m⟩
  aligned : start % pageSize = 0
  top : start + len < userspaceTop
  page : ∀ {c}, Stepped start (start + len) c → ∃ f ∈ fs,
    lookup (words k'.machine.mem) r c = addFlags (frame f) userFlags
  above : ∀ c, start ≤ c → c < userspaceTop → ¬ Stepped start (start + len) c →
    lookup (words k'.machine.mem) r c = 0

/-- `procmm_setup` behind the segments. -/
theorem Laid.procmmSetup {E : Nat → Prop} {len start last : Nat}
    (h : Laid b own r m E fs zs k) (hlast : zs.getLast? = some last)
    (hend : E (k.area last).stop → (k.area last).stop ≤ userspaceTop
      ∧ nextPage (k.area last).stop + len < userspaceTop)
    (hcall : procmmSetup (frame b) grow k m len = some (start, k')) :
  ∃ used fs', fs = used ++ fs' ∧ Executed b own r m len fs fs' start k'
  := by
  have hmem : last ∈ zs := List.mem_of_getLast? hlast
  obtain ⟨hstop, htop⟩ := hend (h.ends last hmem)
  obtain ⟨used, fs', rfl, -, hready', hstart, hsetup⟩ :=
    h.ready.procmmSetup h.list hlast h.live h.P4 hstop htop hcall
  rw [← hstart] at htop
  have hroot : k.Root r := ⟨m, h.live, h.P4⟩
  have hnext := lt_nextPage (show (k.area last).stop + pageSize < 2 ^ 64 by
    rw [userspaceTop] at hstop
    rw [pageSize]
    omega)
  rw [← hstart] at hnext
  refine ⟨used, fs', rfl, hready', ?_, ?_, ⟨zs, k.areas, hsetup.list, hsetup.brk.1, hsetup.brk.2,
    hsetup.stack.1, hsetup.stack.2⟩, hnext.2.1, htop, ?_, ?_⟩
  · rw [hsetup.keeps.live]
    exact h.live
  · rw [hsetup.keeps.P4]
    exact h.P4
  · intro c hstep
    obtain ⟨f, hf, heq⟩ := hsetup.page hstep
    exact ⟨f, List.mem_append_left _ hf, heq⟩
  · intro c hle hlt hnot
    have huser := (user_ne_kernel hlt).1
    rw [hsetup.other (Or.inr hroot) huser (fun hand => hnot hand.2)]
    by_contra hne
    obtain ⟨z, hz, hstep⟩ := h.pages c huser hne
    obtain ⟨hord, hbelow⟩ := h.list.stop_le hlast hz
    -- a page of the program lies below the break
    obtain ⟨x, -, hx, hpage⟩ := hstep.exists (Nat.le_trans hbelow hstop) hlt
    have hmod := hnext.2.1
    rw [pageSize] at hpage hmod
    omega

/-- The image is accepted, and its segments stand in ascending order and leave room for `len` bytes
behind them. -/
structure Executable (mem : Memory) (data len : Nat) : Prop where
  magic : (elfHeader mem data).identity = elfMagic
  type : (elfHeader mem data).type = elfTypeExecutable
  segments : segments mem data ≠ []
  loadable : ∀ p ∈ Procmm.segments mem data, p.Loadable
  ascending : AscendingSegments (Procmm.segments mem data)
  room : ∀ p ∈ Procmm.segments mem data,
    nextPage (p.virtualAddress + p.memSize) + len < userspaceTop

/-- The frames that `exec_elf` takes off the free stack, at most. -/
def execFrames (grow : Nat → Nat) (k : Kernel) (ps : List PHead) (len : Nat) : Nat :=
  4 * (heapPages grow (k.areas + k.maps) (ps.length + 2) + segmentPages ps + turns 0 len)

theorem turns_shift (start len : Nat) :
  turns start (start + len) = turns 0 len
  := by
  rw [turns, turns, Nat.add_sub_cancel_left, Nat.sub_zero]

/-- Two areas more than the segments. -/
theorem heapPages_setup (n l : Nat) :
  heapPages grow n (l + 2) = heapPages grow n l + (grow (n + l) + grow (n + l + 1))
  := by
  rw [heapPages_add]
  rfl

/-- `procmm_setup` is reached and returns, when there are frames for it. -/
theorem Prepared.exists_setup {len : Nat} (h : Prepared b own r m fs data size k)
    (himage : Executable (kernelMemory (frame b) k.machine) data len)
    (hroom : k.heapBrk + pageSize * heapPages grow (k.areas + k.maps)
      ((segments (kernelMemory (frame b) k.machine) data).length + 2) ≤ 2 ^ 64)
    (hframes : execFrames grow k (segments (kernelMemory (frame b) k.machine) data) len
      ≤ fs.length) :
  ∃ k₁ start k₂ used fs', Procmm.loadElf (frame b) grow k m data
      = some ((elfHeader (kernelMemory (frame b) k.machine) data).entry, k₁)
    ∧ procmmSetup (frame b) grow k₁ m len = some (start, k₂)
    ∧ (∃ p ∈ segments (kernelMemory (frame b) k.machine) data,
        start = nextPage (p.virtualAddress + p.memSize))
    ∧ fs = used ++ fs' ∧ Executed b own r m len fs fs' start k₂
  := by
  obtain ⟨ps, hps⟩ : ∃ ps, ps = segments (kernelMemory (frame b) k.machine) data := ⟨_, rfl⟩
  have hloadable := himage.loadable
  have hascending := himage.ascending
  have hend := himage.room
  have hne := himage.segments
  have hload := @Ready.loadElf_eq b r m data size own fs grow k h.ready h.live h.P4 h.image h.headers
    hloadable himage.magic himage.type
  have hspec := fun k₁ => @Prepared.loaded b r m data size own fs grow k k₁
  rw [← hps] at hroom hframes hloadable hascending hend hne hload hspec
  rw [heapPages_setup, Nat.mul_add] at hroom
  rw [execFrames, heapPages_setup] at hframes
  -- the segments
  obtain ⟨k₁, hall⟩ := @Laid.exists_loadAll b r m data own (EndOf ps) fs [] grow k ps h.laid
    (fun p hp => ⟨hloadable p hp, p, hp, rfl⟩) hascending nofun (by omega)
    (by rw [loadFrames]; omega)
  rw [hall, Option.map_some] at hload
  obtain ⟨used, fs₁, zs, rfl, hused, hlaid, htook, hzs⟩ := hspec k₁ h hloadable hascending hall
  obtain ⟨last, hlast⟩ : ∃ last, zs.getLast? = some last := by
    cases hzs' : zs.getLast? with
    | none => exact absurd (hzs (List.getLast?_eq_none_iff.mp hzs')) hne
    | some last => exact ⟨last, rfl⟩
  have hstop : EndOf ps (k₁.area last).stop → (k₁.area last).stop ≤ userspaceTop
      ∧ nextPage (k₁.area last).stop + len < userspaceTop := by
    rintro ⟨p, hp, heq⟩
    rw [heq]
    exact ⟨(hloadable p hp).2, hend p hp⟩
  -- the break and the stack
  obtain ⟨hle, hlt⟩ := hstop (hlaid.ends last (List.mem_of_getLast? hlast))
  have hcount : k₁.areas + k₁.maps = k.areas + k.maps + ps.length := by
    rw [htook.areas, htook.spends.maps]
    omega
  rw [loadFrames] at hused
  rw [List.length_append] at hframes
  obtain ⟨start, k₂, hsetup⟩ := @Ready.exists_procmmSetup b m r len last own fs₁ zs grow k₁
    hlaid.ready hlaid.list hlast hlaid.live hlaid.P4 hle hlt (by rw [htook.heap, hcount]; omega)
    (by rw [hcount, turns_shift]; omega)
  obtain ⟨used', fs', hfs, hexecuted⟩ := hlaid.procmmSetup hlast hstop hsetup
  have hstart : ∃ p ∈ ps, start = nextPage (p.virtualAddress + p.memSize) := by
    obtain ⟨p, hp, heq⟩ := hlaid.ends last (List.mem_of_getLast? hlast)
    obtain ⟨last', -, -, -, -, hlast', hstart, -⟩ := procmmSetup_cases hsetup
    rw [hlaid.list.rep.last, hlast] at hlast'
    obtain rfl := Option.some.inj hlast'
    refine ⟨p, hp, ?_⟩
    rw [hstart, heq]
  rw [← hps]
  refine ⟨k₁, start, k₂, used ++ used', fs', hload, hsetup, hstart,
    by rw [hfs, List.append_assoc], ?_⟩
  have hpage := @hexecuted.page
  refine ⟨hexecuted.ready, hexecuted.live, hexecuted.P4, hexecuted.list, hexecuted.aligned,
    hexecuted.top, ?_, hexecuted.above⟩
  intro c hstep
  obtain ⟨f, hf, heq⟩ := hpage hstep
  exact ⟨f, List.mem_append_right _ hf, heq⟩

/-- The pages of the break are pages of the user. -/
theorem Executed.userPages {len start : Nat} {fs' : List Nat}
    (h : Executed b own r m len fs fs' start k) (hfs : ∀ f ∈ fs, frame f < 2 ^ 39) {c : Nat}
    (hstep : Stepped start (start + len) c) :
  ∃ f < 2 ^ 40, lookup (words k.machine.mem) r c = addFlags (frame f) userFlags
  := by
  obtain ⟨f, hf, heq⟩ := h.page hstep
  have hlt := hfs f hf
  rw [frame, pageSize] at hlt
  exact ⟨f, by omega, heq⟩

/-- The processor finds the bytes of the pages of the user. -/
theorem Writable.kernelMemory {q a n : Nat} {live : Nat → Prop} {v : Memory} {s : Machine}
    (h : Writable b own live fs q a n v s) {x : Nat} (hx : a ≤ x) (hx' : x < a + n) :
  kernelMemory (frame q) s x = byteAt s q x
  := by
  obtain ⟨f, htranslate, hlookup⟩ := h.translate hx hx'
  rw [kernelMemory_eq htranslate, byteAt, place, hlookup, (userFlags_entry f).2]

/-- `exec_elf` returns the state after its last call. -/
theorem execElf_of_calls {bootP4 entry start brk : Nat} {k₁ k₂ : Kernel} {s : Machine}
    (hload : Procmm.loadElf bootP4 grow k m data = some (entry, k₁))
    (hsetup : procmmSetup bootP4 grow k₁ m (argLength argv envp) = some (start, k₂))
    (hbrk : (k₂.map m).brk = some brk)
    (hwrite : writeArguments (k₂.map m).P4 k₂.machine (k₂.area brk).start argv envp = some s) :
  execElf bootP4 grow k m data argv envp
    = some (⟨entry, (k₂.area brk).start, argv.length⟩, k₂.withMachine s)
  := by
  rw [execElf, hload]
  dsimp only
  rw [hsetup]
  dsimp only
  rw [hbrk]
  dsimp only
  rw [hwrite]

/-- An image that can be run is loaded, and the arguments are written to the area of the break. -/
theorem Prepared.execElf_eq (h : Prepared b own r m fs data size k)
    (himage : Executable (Procmm.kernelMemory (frame b) k.machine) data (argLength argv envp))
    (hroom : k.heapBrk + pageSize * heapPages grow (k.areas + k.maps)
      ((segments (Procmm.kernelMemory (frame b) k.machine) data).length + 2) ≤ 2 ^ 64)
    (hframes : execFrames grow k (segments (Procmm.kernelMemory (frame b) k.machine) data)
      (argLength argv envp) ≤ fs.length) :
  ∃ k₁ start k₂ fs' s,
    Procmm.loadElf (frame b) grow k m data
      = some ((elfHeader (Procmm.kernelMemory (frame b) k.machine) data).entry, k₁)
    ∧ procmmSetup (frame b) grow k₁ m (argLength argv envp) = some (start, k₂)
    ∧ Executed b own r m (argLength argv envp) fs fs' start k₂
    ∧ Wrote b own k₂.Root fs' r start (argLength argv envp)
        (putArguments (byteAt k₂.machine r) start argv envp) k₂.machine s
    ∧ execElf (frame b) grow k m data argv envp
      = some (⟨(elfHeader (Procmm.kernelMemory (frame b) k.machine) data).entry, start, argv.length⟩,
          k₂.withMachine s)
  := by
  obtain ⟨k₁, start, k₂, used, fs', hload, hsetup, -, rfl, hexecuted⟩ :=
    h.exists_setup himage hroom hframes
  obtain ⟨zs, brk, -, hbrk, harea, -⟩ := hexecuted.list
  have hpages : ∀ {c}, Stepped start (start + argLength argv envp) c → ∃ f < 2 ^ 40,
      lookup (words k₂.machine.mem) r c = addFlags (frame f) userFlags :=
    hexecuted.userPages fun f hf => (h.ready.sound.unused f hf).1
  obtain ⟨s, hwrite, hwrote⟩ := (hexecuted.ready.writable h.own hexecuted.aligned
    (Nat.le_of_lt hexecuted.top) hpages).writeArguments (Nat.le_succ (argLength argv envp))
  have hstart : (k₂.area brk).start = start := by rw [harea]
  have hexec := execElf_of_calls hload hsetup hbrk
    (by rw [hstart, hexecuted.P4]; exact hwrite)
  rw [hstart] at hexec
  exact ⟨k₁, start, k₂, fs', s, hload, hsetup, hexecuted, hwrote, hexec⟩

/-- `exec_elf` writes the arguments to the area of the break only, and the process finds them
there. -/
theorem execElf_arguments (h : Prepared b own r m fs data size k)
    (himage : Executable (Procmm.kernelMemory (frame b) k.machine) data (argLength argv envp))
    (hroom : k.heapBrk + pageSize * heapPages grow (k.areas + k.maps)
      ((segments (Procmm.kernelMemory (frame b) k.machine) data).length + 2) ≤ 2 ^ 64)
    (hframes : execFrames grow k (segments (Procmm.kernelMemory (frame b) k.machine) data)
      (argLength argv envp) ≤ fs.length) :
  ∃ th k₁ k₂ mem brk addr,
    execElf (frame b) grow k m data argv envp
      = some (th, k₂.withMachine (k₂.machine.withMem mem))
    ∧ Procmm.loadElf (frame b) grow k m data = some (th.rip, k₁)
    ∧ procmmSetup (frame b) grow k₁ m (argLength argv envp) = some (th.rsi, k₂)
    ∧ (k₂.map m).brk = some brk ∧ k₂.area brk = ⟨th.rsi, th.rsi + argLength argv envp, 0, m⟩
    ∧ (∀ c, th.rsi ≤ c → c < th.rsi + argLength argv envp →
        ∃ f, lookup (words mem) r c = addFlags (frame f) userFlags)
    ∧ Within (words k₂.machine.mem) r th.rsi (argLength argv envp) k₂.machine.mem mem
    ∧ th.rdi = argv.length
    ∧ ArgumentBlock (Procmm.kernelMemory (frame r) (k₂.machine.withMem mem)) th.rsi argv envp addr
  := by
  obtain ⟨k₁, start, k₂, fs', s, hload, hsetup, hexecuted, hwrote, hexec⟩ :=
    h.execElf_eq himage hroom hframes
  obtain ⟨zs, brk, -, hbrk, harea, -⟩ := hexecuted.list
  have htop := hexecuted.top
  obtain ⟨mem, rfl, hwithin⟩ := hwrote.mem
  have hblock := @putArguments_spec start argv envp (byteAt k₂.machine r) (by
    rw [userspaceTop] at htop
    omega)
  refine ⟨⟨(elfHeader (Procmm.kernelMemory (frame b) k.machine) data).entry, start, argv.length⟩, k₁,
    k₂, mem, brk, _, hexec, hload, hsetup, hbrk, harea, ?_, hwithin, rfl, hblock.congr ?_⟩
  · intro c hc hc'
    dsimp only at hc hc'
    obtain ⟨f, -, heq⟩ := hwrote.writable.pages (c - start) (by omega)
    rw [Nat.add_sub_cancel' hc] at heq
    exact ⟨f, heq⟩
  · intro x hx hx'
    rw [hwrote.writable.kernelMemory hx hx', hwrote.writable.view x hx hx']

end Exec

/-! ### A first process -/

theorem Stored.prepared {p : PHead} {fs : List Nat} {k : Kernel} (h : Stored p fs k) :
  Prepared 16 (withRoot 32 fun _ => False) 32 0 fs imageStart 128 k
  := by
  refine ⟨h.ready, Or.inl rfl, h.live, ?_, ?_, h.empty, h.image, h.headers⟩
  · rw [h.map]
  · rw [h.map]

/-- The strings `"a"` and `"bc"`. -/
def oneArgument : List (List UInt8) := [[97], [98, 99]]

/-- The image with one segment can be run with these arguments, and there are frames for it. -/
theorem Stored.executable {fs : List Nat} {k : Kernel} (h : Stored oneSegment fs k) :
  Executable (kernelMemory (frame 16) k.machine) imageStart (argLength oneArgument [])
    ∧ k.heapBrk + pageSize * heapPages (fun _ => 0) (k.areas + k.maps)
      ((Procmm.segments (kernelMemory (frame 16) k.machine) imageStart).length + 2) ≤ 2 ^ 64
    ∧ execFrames (fun _ => 0) k (Procmm.segments (kernelMemory (frame 16) k.machine) imageStart)
      (argLength oneArgument []) ≤ fs.length
  := by
  have hone : ∀ {P : PHead → Prop}, P oneSegment →
      ∀ p ∈ Procmm.segments (kernelMemory (frame 16) k.machine) imageStart, P p := by
    intro P hP p hp
    rw [h.segments] at hp
    rw [List.mem_singleton.mp hp]
    exact hP
  refine ⟨?_, ?_, ?_⟩
  · refine ⟨?_, ?_, ?_, hone ⟨by decide, by decide⟩, ?_, hone (by decide)⟩
    · rw [h.header]
    · rw [h.header]
    · rw [h.segments]
      exact List.cons_ne_nil _ _
    · rw [h.segments]
      exact List.pairwise_singleton _ _
  · have hpages : heapPages (fun _ => 0) (k.areas + k.maps) ([oneSegment].length + 2) = 0 := rfl
    rw [h.segments, hpages, h.heap]
    decide
  · have hcount : execFrames (fun _ => 0) k [oneSegment] (argLength oneArgument []) = 8 := rfl
    rw [h.segments, hcount]
    exact Nat.le_trans (by decide) h.frames.1

/-- A first process finds its arguments. -/
theorem execElf_arguments_oneSegment :
  ∃ fs k th k' addr, Stored oneSegment fs k
    ∧ execElf (frame 16) (fun _ => 0) k 0 imageStart oneArgument [] = some (th, k')
    ∧ th.rdi = 2
    ∧ ArgumentBlock (kernelMemory (frame 32) k'.machine) th.rsi oneArgument [] addr
  := by
  obtain ⟨fs, k, h⟩ := @exists_stored oneSegment (imageWords_lt (by decide)) rfl rfl rfl
  obtain ⟨himage, hroom, hframes⟩ := h.executable
  obtain ⟨th, k₁, k₂, mem, brk, addr, hexec, -, -, -, -, -, -, hrdi, hblock⟩ :=
    execElf_arguments h.prepared himage hroom hframes
  exact ⟨fs, k, th, _, addr, h, hexec, hrdi, hblock⟩

end Procmm
