import Mittos64.Proc.BreakBounds
import Mittos64.Proc.Refill

/-!
# What earlier owners have left

`exec_elf`, `brk` and the handler of page faults map frames of the free stack for a user.  None of
them clears a frame: the user reads what it held, but for the bytes that `exec_elf` writes.
`vmm_find_page` and `vmm_new_P4` do clear the frames they take for tables.
-/

open DList

namespace Procmm

open Mem

/-- The calls that map pages for a user. -/
inductive Operation where
  | execElf (image : Nat) (argv envp : List (List UInt8))
  | brk (addr : Nat)
  | pageFault (addr : Nat)

/-- The call in the process with the map `m`. -/
def Operation.run (b : Nat) (grow : Nat → Nat) (m : Nat) (k : Kernel) : Operation → Option Kernel
  | .execElf image argv envp => (Procmm.execElf (frame b) grow k m image argv envp).map Prod.snd
  | .brk addr => (syscallBrk (frame b) k m addr).map Prod.snd
  | .pageFault addr => (procmmPageFault (frame b) k m addr).map Prod.snd

/-- The call maps a page: `exec_elf` always does, for the arguments; `brk` does when there is a page
between the old end of the break and the new one; the handler does when it handles the fault. -/
def Operation.MapsPage (m : Nat) (k : Kernel) : Operation → Prop
  | .execElf _ _ _ => True
  | .brk addr => addr ≠ 0 ∧ ∃ brk next, (k.map m).brk = some brk ∧ (k.link brk).next = some next
      ∧ nextPage (k.area brk).stop < min addr (k.area next).start
  | .pageFault addr => addr < kernelOffset ∧ ∃ stack, (k.map m).stack = some stack
      ∧ (k.area stack).start ≤ incptr addr pageSize

/-- The process with the map `m` has the P4 `r`, and what it does with the break, the stack and the
image stays below `USERSPACE_TOP`. -/
def Operation.InUser (b : Nat) (own : Nat → Prop) (r m : Nat) (fs : List Nat) (k : Kernel) :
    Operation → Prop
  | .execElf image argv envp => ∃ size, Prepared b own r m fs image size k
      ∧ ∀ p ∈ segments (kernelMemory (frame b) k.machine) image, p.Loadable
        ∧ nextPage (p.virtualAddress + p.memSize) + argLength argv envp ≤ userspaceTop
  | .brk addr => addr < 2 ^ 64
      ∧ ∀ brk next, (k.map m).brk = some brk → (k.link brk).next = some next →
        (k.area brk).start ≤ (k.area next).start ∧ (k.area next).start ≤ userspaceTop
  | .pageFault _ => ∀ stack, (k.map m).stack = some stack →
      pageSize ≤ (k.area stack).start ∧ (k.area stack).start ≤ userspaceTop

/-- On two kernels that differ in the contents of their free frames `fs` only, the user reads the
same after the call. -/
def Operation.Oblivious (b : Nat) (grow : Nat → Nat) (fs : List Nat) (r m : Nat) (k : Kernel)
    (op : Operation) : Prop :=
  ∀ mem k₁ k₂, Refilled fs k.machine.mem mem → op.run b grow m k = some k₁ →
    op.run b grow m (k.refill mem) = some k₂ → SameView r k₁.machine k₂.machine

/-- The call returns whatever the free frames `fs` hold. -/
def Operation.Returns (b : Nat) (grow : Nat → Nat) (fs : List Nat) (m : Nat) (k : Kernel)
    (op : Operation) : Prop :=
  ∀ mem, Refilled fs k.machine.mem mem → ∃ k₂, op.run b grow m (k.refill mem) = some k₂

/-- The last byte of the page of the address `a`. -/
def lastByte (a : Nat) : Nat :=
  a / pageSize * pageSize + (pageSize - 1)

/-- The memory with the byte `w` everywhere in the free frames `fs` behind their pointers. -/
def fillFree (fs : List Nat) (m : Memory) (w : UInt8) : Memory :=
  fun x => if x / pageSize ∈ fs ∧ 8 ≤ x % pageSize then w else m x

section Leftover

variable {b r m c : Nat} {own : Nat → Prop} {fs fs' used : List Nat} {grow : Nat → Nat}
  {k k' : Kernel} {op : Operation}

theorem lastByte_spec (a : Nat) :
  lastByte a / pageSize = a / pageSize ∧ 8 ≤ lastByte a % pageSize ∧ a ≤ lastByte a
  := by
  rw [lastByte, pageSize]
  omega

theorem lastByte_lt {a : Nat} (h : a < userspaceTop) :
  lastByte a < userspaceTop
  := by
  rw [userspaceTop] at h ⊢
  rw [lastByte, pageSize]
  omega

theorem refilled_fillFree (m : Memory) (w : UInt8) :
  Refilled fs m (fillFree fs m w)
  := by
  intro x hx
  apply if_neg
  rintro ⟨hfree, hle⟩
  exact absurd (hx hfree) (Nat.not_lt.mpr hle)

/-- The user reads the byte that is everywhere in the free frames. -/
theorem Reveals.fillFree {m : Memory} {w : UInt8} {s : Machine}
    (h : Reveals fs (fillFree fs m w) r c s) (hc : 8 ≤ c % pageSize) :
  userRead s r c = some w
  := by
  obtain ⟨f, hf, hread⟩ := h
  have hplace : (frame f + c % pageSize) / pageSize = f ∧ (frame f + c % pageSize) % pageSize
      = c % pageSize := by
    rw [frame, pageSize]
    omega
  rw [hread, Procmm.fillFree, hplace.1, hplace.2, if_pos ⟨hf, hc⟩]

/-- A call that shows what a free frame held is not oblivious. -/
theorem Operation.not_oblivious (hc : c < userspaceTop) (hc' : 8 ≤ c % pageSize)
    (hreturns : op.Returns b grow fs m k)
    (hreveals : ∀ mem k', Refilled fs k.machine.mem mem →
      op.run b grow m (k.refill mem) = some k' → Reveals fs mem r c k'.machine) :
  ¬ op.Oblivious b grow fs r m k
  := by
  intro h
  obtain ⟨k₁, hrun⟩ : ∃ k₁, op.run b grow m k = some k₁ := hreturns k.machine.mem fun _ _ => rfl
  -- a byte that the user does not read
  obtain ⟨w, hw⟩ : ∃ w : UInt8, userRead k₁.machine r c ≠ some w := by
    by_cases hzero : userRead k₁.machine r c = some 0
    · exact ⟨1, by rw [hzero]; decide⟩
    · exact ⟨0, hzero⟩
  have hmem : Refilled fs k.machine.mem (fillFree fs k.machine.mem w) := refilled_fillFree _ w
  obtain ⟨k₂, hrun₂⟩ := hreturns _ hmem
  have hread := (hreveals _ k₂ hmem hrun₂).fillFree hc'
  rw [h _ k₁ k₂ hmem hrun hrun₂ c hc] at hread
  exact hw hread

/-- A frame that has been mapped while other frames became tables. -/
theorem Sound.userRead_grows {live : Nat → Prop} {s s' : Machine} {f : Nat}
    (h : Sound b own live fs' s') (hgrows : Grows b live used s s') (hr : live r)
    (hc : c < userspaceTop) (hlookup : lookup (words s'.mem) r c = addFlags (frame f) userFlags) :
  userRead s' r c = some (s.mem (frame f + c % pageSize))
  := by
  have hentry := userFlags_entry f
  have htable : ¬ IsTable b live s' f := by
    apply h.half.mapped
    refine ⟨r, c, hr, (user_ne_kernel hc).1, ?_, ?_⟩
    · rw [hlookup]
      exact hentry.1
    · rw [hlookup, hentry.2]
  rw [userRead_of_lookup hlookup]
  apply congrArg some
  apply bytes_of_words
  have hplace : (frame f + c % pageSize) / pageSize = f := by
    rw [frame, pageSize]
    omega
  rw [hplace]
  exact hgrows.words_eq htable

/-! ### Page faults -/

/-- The handler maps the page below the stack. -/
theorem procmmPageFault_of_near {stack addr : Nat} (hP4 : (k.map m).P4 = frame r)
    (hstack : (k.map m).stack = some stack) (hstart : pageSize ≤ (k.area stack).start)
    (htop : (k.area stack).start ≤ userspaceTop)
    (hnear : addr < kernelOffset ∧ (k.area stack).start ≤ incptr addr pageSize) :
  (k.area stack).start - pageSize < userspaceTop
    ∧ procmmPageFault (frame b) k m addr
      = (mapPage (frame b) userFlags k.machine (frame r) ((k.area stack).start - pageSize)).map
          fun s => (true, (k.setStart stack ((k.area stack).start - pageSize)).withMachine s)
  := by
  have hwrap : (k.area stack).start - pageSize
      = ((k.area stack).start + 2 ^ 64 - pageSize) % 2 ^ 64 := by
    rw [userspaceTop] at htop
    rw [pageSize] at hstart ⊢
    omega
  constructor
  · rw [pageSize] at hstart ⊢
    rw [userspaceTop] at htop ⊢
    omega
  · rw [procmmPageFault_of_stack hstack hwrap, if_pos hnear, hP4]

/-- The page that the handler maps shows what a free frame held. -/
theorem Ready.pageFault_reveals {stack addr : Nat} {handled : Bool} (h : Ready b own fs k)
    (hlive : k.live m = true) (hP4 : (k.map m).P4 = frame r)
    (hstack : (k.map m).stack = some stack) (hstart : pageSize ≤ (k.area stack).start)
    (htop : (k.area stack).start ≤ userspaceTop)
    (hnear : addr < kernelOffset ∧ (k.area stack).start ≤ incptr addr pageSize)
    (hcall : procmmPageFault (frame b) k m addr = some (handled, k')) :
  Reveals fs k.machine.mem r (lastByte ((k.area stack).start - pageSize)) k'.machine
  := by
  have hroot : k.Root r := ⟨m, hlive, hP4⟩
  have hr : r ≠ 0 := by
    rintro rfl
    exact h.sound.nonzero hroot
  obtain ⟨huser, heq⟩ := @procmmPageFault_of_near b r m k stack addr hP4 hstack hstart htop hnear
  obtain ⟨start, hpage⟩ : ∃ start, start = (k.area stack).start - pageSize := ⟨_, rfl⟩
  rw [← hpage] at huser heq ⊢
  rw [heq] at hcall
  obtain ⟨s, hmap, hk'⟩ := Option.map_eq_some_iff.mp hcall
  obtain ⟨-, rfl⟩ := Prod.mk.inj hk'
  obtain ⟨s', f, new, fs', rfl, hmap', -, hsound, hgrows, -, hlookup⟩ | ⟨-, hnone⟩ :=
    h.sound.mapPage (Or.inr hroot) (resolveP4_frame hr) (user_ne_kernel huser).2 userFlags
  · obtain rfl := Option.some.inj (hmap.symm.trans hmap')
    refine ⟨f, List.mem_append_left _ List.mem_cons_self, ?_⟩
    apply hsound.userRead_grows hgrows hroot (lastByte_lt huser)
    rw [lookup_of_div_eq _ _ (lastByte_spec start).1, hlookup r start (Or.inr hroot), setLookup,
      if_pos ⟨⟨rfl, rfl⟩, Or.inl rfl⟩]
  · rw [hmap] at hnone
    cases hnone

/-- The handler maps the page whatever the free frames hold. -/
theorem Ready.pageFault_returns {stack addr : Nat} {mem : Memory} {x : Bool × Kernel}
    (h : Ready b own fs k) (hlive : k.live m = true) (hP4 : (k.map m).P4 = frame r)
    (hstack : (k.map m).stack = some stack) (hstart : pageSize ≤ (k.area stack).start)
    (htop : (k.area stack).start ≤ userspaceTop)
    (hnear : addr < kernelOffset ∧ (k.area stack).start ≤ incptr addr pageSize)
    (hmem : Refilled fs k.machine.mem mem)
    (hcall : procmmPageFault (frame b) k m addr = some x) :
  ∃ y, procmmPageFault (frame b) (k.refill mem) m addr = some y
  := by
  have hroot : k.Root r := ⟨m, hlive, hP4⟩
  have hr : r ≠ 0 := by
    rintro rfl
    exact h.sound.nonzero hroot
  obtain ⟨huser, heq⟩ := @procmmPageFault_of_near b r m k stack addr hP4 hstack hstart htop hnear
  obtain ⟨-, heq'⟩ :=
    @procmmPageFault_of_near b r m (k.refill mem) stack addr hP4 hstack hstart htop hnear
  rw [heq] at hcall
  obtain ⟨s, hmap, -⟩ := Option.map_eq_some_iff.mp hcall
  obtain ⟨-, s', -, hmap', -⟩ := h.sound.mapPage_twins (Or.inr hroot) (resolveP4_frame hr)
    (user_ne_kernel huser).2 (h.alike_refill hmem).twins hmap
  have hsame : (k.refill mem).area stack = k.area stack := rfl
  rw [hsame, hmap', Option.map_some] at heq'
  exact ⟨_, heq'⟩

/-- A fault that the handler leaves alone changes nothing. -/
theorem procmmPageFault_unhandled {addr : Nat}
    (h : ¬ (Operation.pageFault addr).MapsPage m k) :
  procmmPageFault (frame b) k m addr = some (false, k)
  := by
  cases hstack : (k.map m).stack with
  | none =>
      rw [procmmPageFault, hstack]
      split_ifs
      · rfl
      · rfl
  | some stack =>
      rw [procmmPageFault_of_stack hstack rfl]
      apply if_neg
      rintro ⟨hkernel, hnear⟩
      exact h ⟨hkernel, stack, hstack, hnear⟩

/-! ### The break -/

/-- `brk` when there is no area behind the break. -/
theorem syscallBrk_of_none {brk addr : Nat} (hbrk : (k.map m).brk = some brk) (hne : addr ≠ 0)
    (hnext : (k.link brk).next = none) :
  syscallBrk (frame b) k m addr = none
  := by
  rw [syscallBrk_of_brk hbrk rfl, if_pos hne, procmmResize]
  dsimp only
  rw [hnext]
  split_ifs
  · rfl
  · rfl

/-- `brk` when there is an area behind the break. -/
theorem syscallBrk_of_next {brk next addr stop : Nat} (hbrk : (k.map m).brk = some brk)
    (hne : addr ≠ 0) (hnext : (k.link brk).next = some next) (haddr : addr < 2 ^ 64)
    (hle : (k.area brk).start ≤ (k.area next).start) (htop : (k.area next).start ≤ userspaceTop)
    (hstop : stop = min addr (k.area next).start) :
  syscallBrk (frame b) k m addr
    = if ((k.area brk).stop + 2 ^ 64 - (k.area brk).start) % 2 ^ 64
          < (addr + 2 ^ 64 - (k.area brk).start) % 2 ^ 64 then
        (mapPages (frame b) (turns (nextPage (k.area brk).stop) stop + 1) k.machine (k.map m).P4
          (nextPage (k.area brk).stop) stop).map fun s =>
            (stop, (k.setStop brk stop).withMachine s)
      else none
  := by
  obtain ⟨len, hlen⟩ : ∃ len, len = (addr + 2 ^ 64 - (k.area brk).start) % 2 ^ 64 := ⟨_, rfl⟩
  rw [userspaceTop] at htop
  have hmin : stop = min (incptr (k.area brk).start len) (k.area next).start := by
    rw [hstop, incptr]
    congr 1
    omega
  rw [syscallBrk_of_brk hbrk hlen, if_pos hne, ← hlen]
  split_ifs with hgrow
  · rw [procmmResize_of_lt hnext hgrow hle (by omega) hmin, Option.map_map]
    apply congrArg (Option.map · _)
    funext s
    rw [Function.comp_apply, Kernel.withMachine_area, Kernel.setStop_area, Function.update_self]
  · rw [procmmResize]
    dsimp only
    rw [if_neg hgrow]
    rfl

/-- The first page that `brk` maps shows what a free frame held. -/
theorem Ready.brk_reveals {brk next addr v : Nat} (h : Ready b own fs k) (hlive : k.live m = true)
    (hP4 : (k.map m).P4 = frame r) (huser : (Operation.brk addr).InUser b own r m fs k)
    (hne : addr ≠ 0) (hbrk : (k.map m).brk = some brk) (hnext : (k.link brk).next = some next)
    (hpage : nextPage (k.area brk).stop < min addr (k.area next).start)
    (hcall : syscallBrk (frame b) k m addr = some (v, k')) :
  Reveals fs k.machine.mem r (lastByte (nextPage (k.area brk).stop)) k'.machine
  := by
  obtain ⟨haddr, hareas⟩ := huser
  obtain ⟨hle, htop⟩ := hareas brk next hbrk hnext
  obtain ⟨stop, hstop⟩ : ∃ stop, stop = min addr (k.area next).start := ⟨_, rfl⟩
  rw [syscallBrk_of_next hbrk hne hnext haddr hle htop hstop] at hcall
  split_ifs at hcall
  obtain ⟨s, hmap, heq⟩ := Option.map_eq_some_iff.mp hcall
  obtain ⟨-, rfl⟩ := Prod.mk.inj heq
  rw [← hstop] at hpage
  have hroot : k.Root r := ⟨m, hlive, hP4⟩
  have hstop' : stop ≤ userspaceTop := by
    rw [hstop]
    exact Nat.le_trans (Nat.min_le_right _ _) htop
  rw [hP4] at hmap
  obtain ⟨s', used, fs', rfl, -, hmap', hsound, hgrows, hmapping⟩ | ⟨-, hnone⟩ :=
    h.sound.mapPages hroot hstop' (Nat.lt_succ_self _)
  · obtain rfl := Option.some.inj (hmap.symm.trans hmap')
    have hstep : Stepped (nextPage (k.area brk).stop) stop (nextPage (k.area brk).stop) :=
      (stepped_of_lt hpage).mpr (Or.inl ⟨rfl, rfl⟩)
    obtain ⟨f, hf, hlookup⟩ := hmapping.page hstep
    refine ⟨f, List.mem_append_left _ hf, ?_⟩
    apply hsound.userRead_grows hgrows hroot
    · exact lastByte_lt (Nat.lt_of_lt_of_le hpage hstop')
    · rw [lookup_of_div_eq _ _ (lastByte_spec _).1]
      exact hlookup
  · rw [hmap] at hnone
    cases hnone

/-- `brk` maps its pages whatever the free frames hold. -/
theorem Ready.brk_returns {brk next addr : Nat} {mem : Memory} {x : Nat × Kernel}
    (h : Ready b own fs k) (hlive : k.live m = true) (hP4 : (k.map m).P4 = frame r)
    (huser : (Operation.brk addr).InUser b own r m fs k) (hne : addr ≠ 0)
    (hbrk : (k.map m).brk = some brk) (hnext : (k.link brk).next = some next)
    (hmem : Refilled fs k.machine.mem mem) (hcall : syscallBrk (frame b) k m addr = some x) :
  ∃ y, syscallBrk (frame b) (k.refill mem) m addr = some y
  := by
  obtain ⟨haddr, hareas⟩ := huser
  obtain ⟨hle, htop⟩ := hareas brk next hbrk hnext
  obtain ⟨stop, hstop⟩ : ∃ stop, stop = min addr (k.area next).start := ⟨_, rfl⟩
  have hstop' : stop ≤ userspaceTop := by
    rw [hstop]
    exact Nat.le_trans (Nat.min_le_right _ _) htop
  have heq := @syscallBrk_of_next b m (k.refill mem) brk next addr stop hbrk hne hnext haddr hle
    htop hstop
  have hsame : (k.refill mem).area brk = k.area brk ∧ ((k.refill mem).map m).P4 = frame r :=
    ⟨rfl, hP4⟩
  rw [syscallBrk_of_next hbrk hne hnext haddr hle htop hstop] at hcall
  split_ifs at hcall with hgrow
  obtain ⟨s, hmap, -⟩ := Option.map_eq_some_iff.mp hcall
  rw [hP4] at hmap
  obtain ⟨-, s', -, hmap', -⟩ :=
    h.sound.mapPages_twins ⟨m, hlive, hP4⟩ hstop' (h.alike_refill hmem).twins hmap
  rw [hsame.1, hsame.2, if_pos hgrow, hmap', Option.map_some] at heq
  exact ⟨_, heq⟩

/-- A call of `brk` that maps no page leaves the machine alone, and depends on the areas only. -/
theorem brk_of_not_mapsPage {addr : Nat} {k₁ : Kernel}
    (huser : (Operation.brk addr).InUser b own r m fs k)
    (hnot : ¬ (Operation.brk addr).MapsPage m k)
    (hrun : (Operation.brk addr).run b grow m k = some k₁) (s : Machine) :
  k₁.machine = k.machine
    ∧ (Operation.brk addr).run b grow m (k.withMachine s) = some (k₁.withMachine s)
  := by
  obtain ⟨haddr, hareas⟩ := huser
  rw [Operation.run] at hrun ⊢
  cases hbrk : (k.map m).brk with
  | none =>
      rw [syscallBrk, hbrk] at hrun
      cases hrun
  | some brk =>
      by_cases hne : addr ≠ 0
      · cases hnext : (k.link brk).next with
        | none =>
            rw [syscallBrk_of_none hbrk hne hnext] at hrun
            cases hrun
        | some next =>
            obtain ⟨hle, htop⟩ := hareas brk next hbrk hnext
            obtain ⟨stop, hstop⟩ : ∃ stop, stop = min addr (k.area next).start := ⟨_, rfl⟩
            have hpage : ¬ nextPage (k.area brk).stop < stop := by
              intro hlt
              rw [hstop] at hlt
              exact hnot ⟨hne, brk, next, hbrk, hnext, hlt⟩
            have hsame := @syscallBrk_of_next b m (k.withMachine s) brk next addr stop hbrk hne
              hnext haddr hle htop hstop
            simp only [Kernel.withMachine_area] at hsame
            rw [syscallBrk_of_next hbrk hne hnext haddr hle htop hstop, mapPages, if_neg hpage]
              at hrun
            rw [hsame, mapPages, if_neg hpage]
            split_ifs at hrun ⊢
            · obtain rfl := Option.some.inj hrun
              exact ⟨rfl, rfl⟩
            · cases hrun
      · rw [syscallBrk_of_brk hbrk rfl, if_neg hne] at hrun
        obtain rfl := Option.some.inj hrun
        have hbrk' : ((k.withMachine s).map m).brk = some brk := hbrk
        rw [syscallBrk_of_brk hbrk' rfl, if_neg hne]
        exact ⟨rfl, rfl⟩

/-! ### Executables -/

/-- A call of `procmm_setup` that returns has mapped the pages of the break, if there is one. -/
theorem Ready.procmmSetup_call {size start : Nat} (h : Ready b own fs k) (hlive : k.live m = true)
    (hP4 : (k.map m).P4 = frame r)
    (htop : ∀ last ∈ (k.map m).areas.prev, nextPage (k.area last).stop + size ≤ userspaceTop)
    (hcall : Procmm.procmmSetup (frame b) grow k m size = some (start, k')) :
  ∃ used fs', fs = used ++ fs' ∧ Ready b own fs' k' ∧ Keeps b used k k'
    ∧ start % pageSize = 0 ∧ start + size ≤ userspaceTop
    ∧ ((k'.map m).brk ≠ none → ∀ c, Stepped start (start + size) c →
      ∃ f ∈ used, lookup (words k'.machine.mem) r c = addFlags (frame f) userFlags)
  := by
  obtain ⟨last, brk, k₁, stack, k₂, hlast, hstart, hmap₁, hmap₂, rfl, hbrk, -⟩ :=
    procmmSetup_cases hcall
  have hroom := htop last hlast
  rw [← hstart] at hroom
  have hstop : incptr start size = start + size := by
    apply incptr_of_lt
    rw [userspaceTop] at hroom
    omega
  rw [hstop] at hmap₁
  obtain ⟨used₁, fs₁, rfl, hready₁, hkeeps₁, hpaged₁⟩ := h.procmmMap_call hlive hP4 hroom hmap₁
  obtain ⟨hready₁', hkeeps₁'⟩ := hready₁.setBrk m brk
  have hkeeps := hkeeps₁.trans hkeeps₁'
  have hlive' : (k₁.setBrk m brk).live m = true := by
    rw [hkeeps.live]
    exact hlive
  have hP4' : ((k₁.setBrk m brk).map m).P4 = frame r := by
    rw [hkeeps.P4]
    exact hP4
  obtain ⟨used₂, fs₂, rfl, hready₂, hkeeps₂, hpaged₂⟩ :=
    hready₁'.procmmMap_call hlive' hP4' (Nat.le_refl _) hmap₂
  obtain ⟨hready₂', hkeeps₂'⟩ := hready₂.setStack m stack
  have haligned : start % pageSize = 0 := by
    rw [hstart, nextPage, stripFlags_eq, frame]
    exact Nat.mul_mod_right _ _
  refine ⟨used₁ ++ used₂, fs₂, (List.append_assoc _ _ _).symm, hready₂', ?_, haligned, hroom, ?_⟩
  · have hall := (hkeeps.trans hkeeps₂).trans hkeeps₂'
    simpa using hall
  · intro hne c hc
    rw [hbrk] at hne
    obtain ⟨f, hf, hlookup⟩ := hpaged₁.page hne hc
    refine ⟨f, List.mem_append_left _ hf, ?_⟩
    have hroot : (k₁.setBrk m brk).Root r := ⟨m, hlive', hP4'⟩
    have hkept : lookup (words k₂.machine.mem) r c = lookup (words k₁.machine.mem) r c :=
      hpaged₂.user hready₁' hready₂ (Or.inr hroot) (hc.user hroom)
        fun hand => not_stepped_of_le (Nat.le_refl _) hand.2
    exact hkept.trans hlookup

/-- The image, the arguments and their room. -/
structure ExecCall (b : Nat) (own : Nat → Prop) (r m : Nat) (fs : List Nat) (image size len : Nat)
    (k : Kernel) : Prop where
  prepared : Prepared b own r m fs image size k
  loadable : ∀ p ∈ segments (kernelMemory (frame b) k.machine) image, p.Loadable
  room : ∀ p ∈ segments (kernelMemory (frame b) k.machine) image,
    nextPage (p.virtualAddress + p.memSize) + len ≤ userspaceTop

/-- The break of a new process is above its last segment. -/
theorem ExecCall.last {image size len : Nat} {k₁ : Kernel}
    (h : ExecCall b own r m fs image size len k)
    (hload : loadAll (frame b) grow m image k
      (segments (kernelMemory (frame b) k.machine) image) = some k₁) :
  ∀ last ∈ (k₁.map m).areas.prev, nextPage (k₁.area last).stop + len ≤ userspaceTop
  := by
  have hlast := @loadAll_last (frame b) m image grow k k₁ _
    (fun e => nextPage e + len ≤ userspaceTop) hload
  intro last hmem
  refine (hlast ?_ ?_ last hmem).2
  · intro p hp
    have htop := (h.loadable p hp).2
    rw [incptr_of_lt (by rw [userspaceTop] at htop; omega)]
    exact h.room p hp
  · rw [h.prepared.fresh]
    exact fun last hnil => absurd hnil.symm (Option.some_ne_none last)

/-- The image is the same with other bytes in the free frames. -/
theorem ExecCall.refill {image size len : Nat} {mem : Memory}
    (h : ExecCall b own r m fs image size len k) (hmem : Refilled fs k.machine.mem mem) :
  ExecCall b own r m fs image size len (k.refill mem)
    ∧ elfHeader (kernelMemory (frame b) (k.refill mem).machine) image
      = elfHeader (kernelMemory (frame b) k.machine) image
    ∧ segments (kernelMemory (frame b) (k.refill mem).machine) image
      = segments (kernelMemory (frame b) k.machine) image
  := by
  obtain ⟨hready, -, hlookup⟩ := (h.prepared.ready.alike_refill hmem).ready h.prepared.ready
  obtain ⟨himage, hsame⟩ := h.prepared.image.refill h.prepared.ready hmem
  have hheader := elfHeader_congr hsame h.prepared.headers.header
  have hsegments := segments_congr hsame h.prepared.headers h.prepared.headers.bound
  have hroot : k.Root r := ⟨m, h.prepared.live, h.prepared.P4⟩
  refine ⟨⟨⟨hready, h.prepared.own, h.prepared.live, h.prepared.P4, h.prepared.fresh, ?_, himage,
    ?_⟩, ?_, ?_⟩, hheader, hsegments⟩
  · intro c hc
    exact (hlookup r c (Or.inr hroot)).trans (h.prepared.empty c hc)
  · refine ⟨h.prepared.headers.header, ?_, h.prepared.headers.bound⟩
    rw [hheader]
    exact h.prepared.headers.table
  · rw [hsegments]
    exact h.loadable
  · rw [hsegments]
    exact h.room

/-- After `procmm_setup` the pages of the break show what free frames held. -/
theorem ExecCall.setup {image size len start : Nat} {k₁ k₂ : Kernel}
    (h : ExecCall b own r m fs image size len k)
    (hload : loadAll (frame b) grow m image k
      (segments (kernelMemory (frame b) k.machine) image) = some k₁)
    (hsetup : Procmm.procmmSetup (frame b) grow k₁ m len = some (start, k₂)) :
  ∃ fs', Ready b own fs' k₂ ∧ k₂.Root r ∧ (k₂.map m).P4 = frame r ∧ start % pageSize = 0
    ∧ start + len ≤ userspaceTop
    ∧ ((k₂.map m).brk ≠ none → ∀ c, Stepped start (start + len) c →
      ∃ f ∈ fs, f < 2 ^ 40 ∧ lookup (words k₂.machine.mem) r c = addFlags (frame f) userFlags
        ∧ words k₂.machine.mem f = words k.machine.mem f)
  := by
  have hprepared := h.prepared
  obtain ⟨used₁, fs₁, rfl, hready₁, hspends⟩ :=
    hprepared.ready.loadAll_spends hprepared.live hprepared.P4 h.loadable hload
  have hlive₁ : k₁.live m = true := by
    rw [hspends.live]
    exact hprepared.live
  have hP4₁ : (k₁.map m).P4 = frame r := by
    rw [hspends.P4]
    exact hprepared.P4
  obtain ⟨used₂, fs₂, rfl, hready₂, hkeeps, haligned, htop, hpages⟩ :=
    hready₁.procmmSetup_call hlive₁ hP4₁ (h.last hload) hsetup
  have hroot : k₂.Root r := by
    rw [hkeeps.root]
    exact ⟨m, hlive₁, hP4₁⟩
  refine ⟨fs₂, hready₂, hroot, ?_, haligned, htop, ?_⟩
  · rw [hkeeps.P4]
    exact hP4₁
  · intro hbrk c hstep
    obtain ⟨f, hf, hlookup⟩ := hpages hbrk c hstep
    have hfree : f ∈ used₁ ++ (used₂ ++ fs₂) :=
      List.mem_append_right _ (List.mem_append_left _ hf)
    obtain ⟨hlt, htable, hmapped⟩ := hprepared.ready.sound.unused f hfree
    obtain ⟨-, -, hdisjoint⟩ := List.nodup_append.mp hprepared.ready.sound.nodup
    refine ⟨f, hfree, ?_, hlookup, ?_⟩
    · rw [frame, pageSize] at hlt
      omega
    · have hentry := userFlags_entry f
      have htable₂ : ¬ IsTable b k₁.Root k₂.machine f := by
        rw [← hkeeps.root]
        apply hready₂.sound.half.mapped
        refine ⟨r, c, hroot, hstep.user htop, ?_, ?_⟩
        · rw [hlookup]
          exact hentry.1
        · rw [hlookup, hentry.2]
      rw [hkeeps.grows.words_eq htable₂]
      apply hspends.words_eq htable
      · rintro ⟨a, ha, hne, heq⟩
        exact hmapped ⟨r, a, ⟨m, hprepared.live, hprepared.P4⟩, ha, hne, heq⟩
      · exact fun hin => hdisjoint f hin f (List.mem_append_left _ hf) rfl

/-- The arguments are written, and end before the last byte of their last page, which shows what a
free frame held. -/
theorem ExecCall.arguments {image size start : Nat} {argv envp : List (List UInt8)} {k₁ k₂ : Kernel}
    (h : ExecCall b own r m fs image size (argLength argv envp) k)
    (hload : loadAll (frame b) grow m image k
      (segments (kernelMemory (frame b) k.machine) image) = some k₁)
    (hsetup : Procmm.procmmSetup (frame b) grow k₁ m (argLength argv envp) = some (start, k₂))
    (hbrk : (k₂.map m).brk ≠ none) :
  start + (argLength argv envp - 1) < userspaceTop
    ∧ ∃ s, writeArguments (k₂.map m).P4 k₂.machine start argv envp = some s
      ∧ Reveals fs k.machine.mem r (lastByte (start + (argLength argv envp - 1))) s
  := by
  obtain ⟨fs', hready, hroot, hP4, haligned, htop, hpages⟩ := h.setup hload hsetup
  obtain ⟨len, hlen⟩ : ∃ len, argLength argv envp = len + 1 := by
    rw [argLength]
    exact ⟨_, rfl⟩
  rw [hlen, Nat.add_sub_cancel]
  rw [hlen] at hpages htop
  have hstepped : ∀ {c}, c < userspaceTop → start ≤ c → stripFlags c ≤ start + len →
      Stepped start (start + (len + 1)) c := by
    intro c hc hle hle'
    rw [stepped_iff haligned htop hc]
    omega
  obtain ⟨c, hc⟩ : ∃ c, c = lastByte (start + len) := ⟨_, rfl⟩
  obtain ⟨hdiv, -, hle⟩ := lastByte_spec (start + len)
  rw [← hc] at hdiv hle ⊢
  have huser : c < userspaceTop := by
    rw [hc]
    exact lastByte_lt (by omega)
  have hstep : Stepped start (start + (len + 1)) c := by
    apply hstepped huser (by omega)
    rw [stripFlags, hdiv]
    exact Nat.div_mul_le_self _ _
  obtain ⟨f, hf, -, hlookup, hwords⟩ := hpages hbrk c hstep
  have hpages' : ∀ {a}, Stepped start (start + len) a → ∃ f < 2 ^ 40,
      lookup (words k₂.machine.mem) r a = addFlags (frame f) userFlags := by
    intro a ha
    obtain ⟨g, -, hg, hlookup₁, -⟩ := hpages hbrk a (ha.mono (Nat.le_succ _))
    exact ⟨g, hg, hlookup₁⟩
  obtain ⟨mem, hwrite, -, hwithin, hlookup', -⟩ := @Ready.writeArguments b r m own fs' argv envp k₂
    start len hready h.prepared.own hP4 haligned (by omega) (Nat.le_of_eq hlen) hpages'
  refine ⟨by omega, k₂.machine.withMem mem, hwrite, f, hf, ?_⟩
  have hne : lookup (words k₂.machine.mem) r c ≠ 0 := by
    rw [hlookup]
    exact (userFlags_entry f).1
  have hplace : place (words k₂.machine.mem) r c = frame f + c % pageSize := by
    rw [place, hlookup, (userFlags_entry f).2]
  have hwritten : mem (frame f + c % pageSize) = k₂.machine.mem (frame f + c % pageSize) := by
    apply hwithin
    intro i hi heq
    have hi' : start + i < userspaceTop := by omega
    have hfloor := Nat.div_mul_le_self (start + i) pageSize
    obtain ⟨g, -, -, hlookup₂, -⟩ := hpages hbrk (start + i)
      (hstepped hi' (Nat.le_add_right _ _) (by rw [stripFlags]; omega))
    have hne' : lookup (words k₂.machine.mem) r (start + i) ≠ 0 := by
      rw [hlookup₂]
      exact (userFlags_entry g).1
    rw [← hplace] at heq
    have hsame := hready.sound.place_inj h.prepared.own hroot huser hi' hne hne' heq
    omega
  have hkept : k₂.machine.mem (frame f + c % pageSize)
      = k.machine.mem (frame f + c % pageSize) := by
    apply bytes_of_words
    have hdivf : (frame f + c % pageSize) / pageSize = f := by
      rw [frame, pageSize]
      omega
    rw [hdivf, hwords]
  rw [← hkept, ← hwritten]
  apply userRead_of_lookup
  exact (hlookup' r c (Or.inr hroot)).trans hlookup

/-- `exec_elf` shows what a free frame held in the last page of the arguments. -/
theorem ExecCall.reveals {image size : Nat} {argv envp : List (List UInt8)} {th : ElfThread}
    (h : ExecCall b own r m fs image size (argLength argv envp) k)
    (hcall : execElf (frame b) grow k m image argv envp = some (th, k')) :
  th.rsi + (argLength argv envp - 1) < userspaceTop
    ∧ Reveals fs k.machine.mem r (lastByte (th.rsi + (argLength argv envp - 1))) k'.machine
  := by
  obtain ⟨k₁, start, k₂, brk, s, hload, hsetup, hbrk, hwrite, rfl, hrsi, -⟩ := execElf_cases hcall
  have hall := h.prepared.loadElf h.loadable hload hsetup
  have hstart : (k₂.area brk).start = start := by
    rw [((procmmSetup_areas hsetup).1 brk hbrk).2]
  have hne : (k₂.map m).brk ≠ none := by
    rw [hbrk]
    exact Option.some_ne_none brk
  obtain ⟨hlt, s', hwrite', hreveals⟩ := h.arguments hall hsetup hne
  rw [hstart] at hwrite hrsi
  obtain rfl := Option.some.inj (hwrite.symm.trans hwrite')
  rw [hrsi]
  exact ⟨hlt, hreveals⟩

/-- `exec_elf` returns whatever the free frames hold, with the arguments in the same place. -/
theorem ExecCall.returns {image size : Nat} {argv envp : List (List UInt8)} {th : ElfThread}
    {mem : Memory} (h : ExecCall b own r m fs image size (argLength argv envp) k)
    (hmem : Refilled fs k.machine.mem mem)
    (hcall : execElf (frame b) grow k m image argv envp = some (th, k')) :
  ∃ th' k₂, execElf (frame b) grow (k.refill mem) m image argv envp = some (th', k₂)
    ∧ th'.rsi = th.rsi
  := by
  obtain ⟨k₁, start, k₂, brk, s, hload, hsetup, hbrk, -, -, hrsi, -⟩ := execElf_cases hcall
  have hall := h.prepared.loadElf h.loadable hload hsetup
  obtain ⟨hmagic, htype⟩ := h.prepared.accepted hload hsetup
  obtain ⟨hrefill, hheader, hsegments⟩ := h.refill hmem
  have halike := h.prepared.ready.alike_refill hmem
  obtain ⟨fs₁, k₁', hready₁, hlive₁, hP4₁, hall', halike₁⟩ :=
    halike.loadAll h.prepared.ready h.prepared.live h.prepared.P4 h.loadable hall
  have htop : ∀ last ∈ (k₁.map m).areas.prev,
      incptr (nextPage (k₁.area last).stop) (argLength argv envp) ≤ userspaceTop := by
    intro last hlast
    have hroom := h.last hall last hlast
    rw [incptr_of_lt (by rw [userspaceTop] at hroom; omega)]
    exact hroom
  obtain ⟨fs₂, k₂', hready₂, hsetup', halike₂⟩ :=
    halike₁.procmmSetup hready₁ hlive₁ hP4₁ htop hsetup
  obtain ⟨s₂, rfl, -⟩ := halike₂.machine
  have hbrk' : ((k₂.withMachine s₂).map m).brk = some brk := hbrk
  rw [← hsegments] at hall'
  have hne : ((k₂.withMachine s₂).map m).brk ≠ none := by
    rw [hbrk']
    exact Option.some_ne_none brk
  obtain ⟨-, s₃, hwrite, -⟩ := hrefill.arguments hall' hsetup' hne
  rw [← hheader] at hmagic htype
  have hload' : loadElf (frame b) grow (k.refill mem) m image
      = some ((elfHeader (kernelMemory (frame b) k.machine) image).entry, k₁') := by
    rw [hrefill.prepared.ready.loadElf_eq hrefill.prepared.live hrefill.prepared.P4
      hrefill.prepared.image hrefill.prepared.headers hrefill.loadable hmagic htype, hall',
      Option.map_some, hheader]
  have hstart : ((k₂.withMachine s₂).area brk).start = start := by
    rw [((procmmSetup_areas hsetup').1 brk hbrk').2]
  refine ⟨⟨(elfHeader (kernelMemory (frame b) k.machine) image).entry, start, argv.length⟩,
    (k₂.withMachine s₂).withMachine s₃, ?_, (hrsi.trans hstart).symm⟩
  rw [execElf, hload']
  dsimp only
  rw [hsetup']
  dsimp only
  rw [hbrk']
  dsimp only
  rw [hstart, hwrite]

/-! ### The calls of a process -/

/-! ### The calls of a process -/

/-- The image, the arguments and their room. -/
theorem Operation.InUser.execCall {image : Nat} {argv envp : List (List UInt8)}
    (h : (Operation.execElf image argv envp).InUser b own r m fs k) :
  ∃ size, ExecCall b own r m fs image size (argLength argv envp) k
  := by
  obtain ⟨size, hprepared, hps⟩ := h
  exact ⟨size, hprepared, fun p hp => (hps p hp).1, fun p hp => (hps p hp).2⟩

/-- A call that maps no page leaves the memory of the user alone. -/
theorem Operation.machine_of_not_mapsPage {k₁ : Kernel} (huser : op.InUser b own r m fs k)
    (hnot : ¬ op.MapsPage m k) (hrun : op.run b grow m k = some k₁) (s : Machine) :
  k₁.machine = k.machine ∧ op.run b grow m (k.withMachine s) = some (k₁.withMachine s)
  := by
  cases op with
  | execElf image argv envp => exact absurd trivial hnot
  | brk addr => exact brk_of_not_mapsPage huser hnot hrun s
  | pageFault addr =>
      have hnot' : ¬ (Operation.pageFault addr).MapsPage m (k.withMachine s) := hnot
      rw [Operation.run, procmmPageFault_unhandled hnot] at hrun
      obtain rfl := Option.some.inj hrun
      rw [Operation.run, procmmPageFault_unhandled hnot']
      exact ⟨rfl, rfl⟩

/-- A call that returns does so whatever the free frames hold. -/
theorem Operation.returns {k₁ : Kernel} (h : Ready b own fs k) (hlive : k.live m = true)
    (hP4 : (k.map m).P4 = frame r) (huser : op.InUser b own r m fs k)
    (hrun : op.run b grow m k = some k₁) :
  op.Returns b grow fs m k
  := by
  intro mem hmem
  by_cases hmaps : op.MapsPage m k
  · cases op with
    | execElf image argv envp =>
        obtain ⟨size, hexec⟩ := huser.execCall
        obtain ⟨⟨th, k₁⟩, hcall, rfl⟩ := Option.map_eq_some_iff.mp hrun
        obtain ⟨th', k₂, hcall', -⟩ := hexec.returns hmem hcall
        exact ⟨k₂, Option.map_eq_some_iff.mpr ⟨_, hcall', rfl⟩⟩
    | brk addr =>
        obtain ⟨hne, brk, next, hbrk, hnext, -⟩ := hmaps
        obtain ⟨x, hcall, -⟩ := Option.map_eq_some_iff.mp hrun
        obtain ⟨y, hcall'⟩ := h.brk_returns hlive hP4 huser hne hbrk hnext hmem hcall
        exact ⟨y.2, Option.map_eq_some_iff.mpr ⟨y, hcall', rfl⟩⟩
    | pageFault addr =>
        obtain ⟨hkernel, stack, hstack, hnear⟩ := hmaps
        obtain ⟨hstart, htop⟩ := huser stack hstack
        obtain ⟨x, hcall, -⟩ := Option.map_eq_some_iff.mp hrun
        obtain ⟨y, hcall'⟩ :=
          h.pageFault_returns hlive hP4 hstack hstart htop ⟨hkernel, hnear⟩ hmem hcall
        exact ⟨y.2, Option.map_eq_some_iff.mpr ⟨y, hcall', rfl⟩⟩
  · exact ⟨_, (op.machine_of_not_mapsPage huser hmaps hrun _).2⟩

/-- A call that maps a page shows what a free frame held, at the same address whatever the free
frames hold. -/
theorem Operation.reveals {k₁ : Kernel} (h : Ready b own fs k) (hlive : k.live m = true)
    (hP4 : (k.map m).P4 = frame r) (huser : op.InUser b own r m fs k) (hmaps : op.MapsPage m k)
    (hrun : op.run b grow m k = some k₁) :
  ∃ c < userspaceTop, 8 ≤ c % pageSize ∧ ∀ mem k₂, Refilled fs k.machine.mem mem →
    op.run b grow m (k.refill mem) = some k₂ → Reveals fs mem r c k₂.machine
  := by
  cases op with
  | execElf image argv envp =>
      obtain ⟨size, hexec⟩ := huser.execCall
      obtain ⟨⟨th, k₁⟩, hcall, rfl⟩ := Option.map_eq_some_iff.mp hrun
      obtain ⟨hlt, -⟩ := hexec.reveals hcall
      refine ⟨lastByte (th.rsi + (argLength argv envp - 1)), lastByte_lt hlt,
        (lastByte_spec _).2.1, ?_⟩
      intro mem k₂ hmem hrun₂
      obtain ⟨⟨th₂, k₂⟩, hcall₂, rfl⟩ := Option.map_eq_some_iff.mp hrun₂
      obtain ⟨th', k₂', hcall', hrsi⟩ := hexec.returns hmem hcall
      obtain ⟨rfl, rfl⟩ := Prod.mk.inj (Option.some.inj (hcall₂.symm.trans hcall'))
      have hreveals := ((hexec.refill hmem).1.reveals hcall₂).2
      rw [hrsi] at hreveals
      exact hreveals
  | brk addr =>
      obtain ⟨hne, brk, next, hbrk, hnext, hpage⟩ := hmaps
      have hlt : nextPage (k.area brk).stop < userspaceTop :=
        Nat.lt_of_lt_of_le hpage
          (Nat.le_trans (Nat.min_le_right _ _) (huser.2 brk next hbrk hnext).2)
      refine ⟨lastByte (nextPage (k.area brk).stop), lastByte_lt hlt, (lastByte_spec _).2.1, ?_⟩
      intro mem k₂ hmem hrun₂
      obtain ⟨⟨v, k₂⟩, hcall, rfl⟩ := Option.map_eq_some_iff.mp hrun₂
      have hready := ((h.alike_refill hmem).ready h).1
      exact hready.brk_reveals hlive hP4 huser hne hbrk hnext hpage hcall
  | pageFault addr =>
      obtain ⟨hkernel, stack, hstack, hnear⟩ := hmaps
      obtain ⟨hstart, htop⟩ := huser stack hstack
      have hlt : (k.area stack).start - pageSize < userspaceTop := by
        rw [pageSize] at hstart ⊢
        omega
      refine ⟨lastByte ((k.area stack).start - pageSize), lastByte_lt hlt,
        (lastByte_spec _).2.1, ?_⟩
      intro mem k₂ hmem hrun₂
      obtain ⟨⟨v, k₂⟩, hcall, rfl⟩ := Option.map_eq_some_iff.mp hrun₂
      have hready := ((h.alike_refill hmem).ready h).1
      exact hready.pageFault_reveals hlive hP4 hstack hstart htop ⟨hkernel, hnear⟩ hcall

/-- A call returns whatever the free frames hold, and the user reads the same after it if and only
if it maps no page. -/
theorem Operation.oblivious_iff {k₁ : Kernel} (h : Ready b own fs k) (hlive : k.live m = true)
    (hP4 : (k.map m).P4 = frame r) (huser : op.InUser b own r m fs k)
    (hrun : op.run b grow m k = some k₁) :
  op.Returns b grow fs m k ∧ (op.Oblivious b grow fs r m k ↔ ¬ op.MapsPage m k)
  := by
  have hreturns := op.returns h hlive hP4 huser hrun
  refine ⟨hreturns, ?_, ?_⟩
  · intro hoblivious hmaps
    obtain ⟨c, hc, hc', hreveals⟩ := op.reveals h hlive hP4 huser hmaps hrun
    exact Operation.not_oblivious hc hc' hreturns hreveals hoblivious
  · intro hnot mem k₁' k₂ hmem hrun₁ hrun₂
    obtain ⟨hmachine, hrun'⟩ :=
      op.machine_of_not_mapsPage huser hnot hrun₁ (k.machine.withMem mem)
    obtain rfl := Option.some.inj (hrun₂.symm.trans hrun')
    have hview := h.sameView_refill hmem ⟨m, hlive, hP4⟩
    rw [hmachine]
    exact hview

end Leftover

/-! ### A first process with an empty stack -/

/-- The fault of the first push. -/
def firstPush : Operation :=
  .pageFault (userspaceTop - 8)

/-- The kernel of a first process with an empty stack, and frames for the first push. -/
structure BeforePush (fs : List Nat) (k : Kernel) : Prop where
  ready : Ready 16 (withRoot 32 fun _ => False) fs k
  live : k.live 0 = true
  P4 : (k.map 0).P4 = frame 32
  stack : (k.map 0).stack = some 0
  start : (k.area 0).start = userspaceTop
  frames : 4 ≤ fs.length

section BeforePush

variable {fs : List Nat} {k : Kernel} {grow : Nat → Nat}

theorem exists_beforePush :
  ∃ fs k, BeforePush fs k
  := by
  obtain ⟨k, fs, hfs, hlen, h, hstart, -⟩ := exists_stackArea
  obtain ⟨fs', hready⟩ := h.ready
  obtain rfl := hfs.2.unique hready.sound.stack.2
  exact ⟨fs, k, hready, h.live, h.P4, h.hasStack, hstart, hlen⟩

theorem BeforePush.refill (h : BeforePush fs k) {mem : Memory}
    (hmem : Refilled fs k.machine.mem mem) :
  BeforePush fs (k.refill mem)
  := ⟨((h.ready.alike_refill hmem).ready h.ready).1, h.live, h.P4, h.stack, h.start, h.frames⟩

/-- The first push maps a page below `USERSPACE_TOP`, and returns. -/
theorem BeforePush.run (h : BeforePush fs k) (own : Nat → Prop) :
  firstPush.InUser 16 own 32 0 fs k ∧ firstPush.MapsPage 0 k
    ∧ ∃ k₁, firstPush.run 16 grow 0 k = some k₁
      ∧ Reveals fs k.machine.mem 32 (userspaceTop - 1) k₁.machine
  := by
  have hbounds : pageSize ≤ (k.area 0).start ∧ (k.area 0).start ≤ userspaceTop := by
    rw [h.start]
    decide
  have hnear : userspaceTop - 8 < kernelOffset
      ∧ (k.area 0).start ≤ incptr (userspaceTop - 8) pageSize := by
    rw [h.start]
    decide
  refine ⟨?_, ⟨hnear.1, 0, h.stack, hnear.2⟩, ?_⟩
  · intro stack hstack
    obtain rfl := Option.some.inj (h.stack.symm.trans hstack)
    exact hbounds
  · obtain ⟨huser, heq⟩ :=
      @procmmPageFault_of_near 16 32 0 k 0 (userspaceTop - 8) h.P4 h.stack hbounds.1 hbounds.2 hnear
    obtain ⟨s, f, new, fs', -, hmap, -⟩ | ⟨hlt, -⟩ := h.ready.sound.mapPage
      (Or.inr ⟨0, h.live, h.P4⟩) (resolveP4_frame (by decide)) (user_ne_kernel huser).2 userFlags
    · rw [hmap, Option.map_some] at heq
      have hreveals := h.ready.pageFault_reveals h.live h.P4 h.stack hbounds.1 hbounds.2 hnear heq
      have hlast : lastByte ((k.area 0).start - pageSize) = userspaceTop - 1 := by
        rw [h.start]
        decide
      rw [hlast] at hreveals
      refine ⟨_, ?_, hreveals⟩
      rw [firstPush, Operation.run, heq]
      rfl
    · have hframes := h.frames
      omega

end BeforePush

/-- The first push shows what a free frame held. -/
theorem Operation.oblivious_iff_firstPush :
  ∃ fs k k₁, firstPush.run 16 (fun _ => 0) 0 k = some k₁
    ∧ firstPush.Returns 16 (fun _ => 0) fs 0 k
    ∧ ¬ firstPush.Oblivious 16 (fun _ => 0) fs 32 0 k
  := by
  obtain ⟨fs, k, h⟩ := exists_beforePush
  obtain ⟨huser, hmaps, k₁, hrun, -⟩ :=
    @BeforePush.run fs k (fun _ => 0) h (withRoot 32 fun _ => False)
  obtain ⟨hreturns, hiff⟩ := Operation.oblivious_iff h.ready h.live h.P4 huser hrun
  exact ⟨fs, k, k₁, hrun, hreturns, fun hoblivious => hiff.mp hoblivious hmaps⟩

/-- Two kernels that differ in the bytes of free frames only; the user reads one of these bytes in
the new page of the stack. -/
theorem firstPush_reveals :
  ∃ fs k mem k₁ k₂, BeforePush fs k ∧ Refilled fs k.machine.mem mem
    ∧ firstPush.run 16 (fun _ => 0) 0 k = some k₁
    ∧ firstPush.run 16 (fun _ => 0) 0 (k.refill mem) = some k₂
    ∧ userRead k₁.machine 32 (userspaceTop - 1) = some 1
    ∧ userRead k₂.machine 32 (userspaceTop - 1) = some 2
    ∧ ¬ firstPush.Oblivious 16 (fun _ => 0) fs 32 0 k
  := by
  obtain ⟨fs, k₀, h₀⟩ := exists_beforePush
  obtain ⟨k, hk⟩ : ∃ k, k = k₀.refill (fillFree fs k₀.machine.mem 1) := ⟨_, rfl⟩
  have h : BeforePush fs k := by
    rw [hk]
    exact h₀.refill (refilled_fillFree _ 1)
  have hmem : Refilled fs k.machine.mem (fillFree fs k.machine.mem 2) := refilled_fillFree _ 2
  obtain ⟨-, -, k₁, hrun₁, hreveals₁⟩ := @BeforePush.run fs k (fun _ => 0) h fun _ => False
  obtain ⟨-, -, k₂, hrun₂, hreveals₂⟩ :=
    @BeforePush.run fs _ (fun _ => 0) (h.refill hmem) fun _ => False
  have hfill : k.machine.mem = fillFree fs k₀.machine.mem 1 := by
    rw [hk]
    rfl
  rw [hfill] at hreveals₁
  have hread₁ := hreveals₁.fillFree (by decide)
  have hread₂ := Reveals.fillFree (m := k.machine.mem) hreveals₂ (by decide)
  refine ⟨fs, k, _, k₁, k₂, h, hmem, hrun₁, hrun₂, hread₁, hread₂, ?_⟩
  intro hoblivious
  have hsame := hoblivious _ k₁ k₂ hmem hrun₁ hrun₂ (userspaceTop - 1) (by decide)
  rw [hread₁, hread₂] at hsame
  exact absurd hsame (by decide)

end Procmm
