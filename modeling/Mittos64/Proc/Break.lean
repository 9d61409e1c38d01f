import Mittos64.Proc.Exec

/-!
# Growing the break

`procmm_resize` maps the pages from `(old_end + PAGE_SIZE) & ~(PAGE_SIZE-1)` on.  That is the first
page behind the old end, unless the old end is itself the start of a page: then this page is left
out.  So calls of `brk` keep all addresses before the break mapped as long as no break at which a
call is made is the start of a page.
-/

open DList

namespace Procmm

open Mem

/-- A process with a break below its stack. -/
structure Bounded (b : Nat) (own : Nat → Prop) (r m brk stack : Nat) (k : Kernel) : Prop where
  ready : ∃ fs, Ready b own fs k
  live : k.live m = true
  P4 : (k.map m).P4 = frame r
  hasBrk : (k.map m).brk = some brk
  hasStack : (k.map m).stack = some stack
  next : (k.link brk).next = some stack
  ne : stack ≠ brk
  le : (k.area brk).start ≤ (k.area brk).stop
  below : (k.area brk).stop ≤ (k.area stack).start
  top : (k.area stack).start ≤ userspaceTop

/-- A process with a break that can grow up to the stack, with no pages in between. -/
structure Growing (b : Nat) (own : Nat → Prop) (r m brk stack : Nat) (k : Kernel) : Prop where
  ready : ∃ fs, Ready b own fs k
  live : k.live m = true
  P4 : (k.map m).P4 = frame r
  hasBrk : (k.map m).brk = some brk
  hasStack : (k.map m).stack = some stack
  next : (k.link brk).next = some stack
  ne : stack ≠ brk
  top : (k.area stack).start = userspaceTop
  aligned : (k.area brk).start % pageSize = 0
  le : (k.area brk).start ≤ (k.area brk).stop
  mapped : ∀ c, (k.area brk).start ≤ c → c < (k.area brk).stop →
    lookup (words k.machine.mem) r c ≠ 0
  above : ∀ c < userspaceTop, (k.area brk).stop ≤ stripFlags c → lookup (words k.machine.mem) r c = 0

/-- The call `brk(addr)` asks for a break above the current one, and at most at the start of the
stack. -/
def Asks (k : Kernel) (m addr : Nat) : Prop :=
  ∃ brk stack, (k.map m).brk = some brk ∧ (k.map m).stack = some stack
    ∧ (k.area brk).stop < addr ∧ addr ≤ (k.area stack).start

/-- The break is inside a page. -/
def Inside (k : Kernel) (m : Nat) : Prop :=
  ∀ brk, (k.map m).brk = some brk → (k.area brk).stop % pageSize ≠ 0

/-- All addresses before the break are mapped. -/
def Covered (k : Kernel) (m r : Nat) : Prop :=
  ∀ brk, (k.map m).brk = some brk → ∀ c, (k.area brk).start ≤ c → c < (k.area brk).stop →
    lookup (words k.machine.mem) r c ≠ 0

section Break

variable {b r m brk stack addr : Nat} {own : Nat → Prop} {fs : List Nat} {k k' : Kernel}

/-- `brk(addr)` in a process that has a break. -/
theorem syscallBrk_of_brk (hbrk : (k.map m).brk = some brk) {len : Nat}
    (hlen : len = (addr + 2 ^ 64 - (k.area brk).start) % 2 ^ 64) :
  syscallBrk (frame b) k m addr
    = if addr ≠ 0 then
        (procmmResize (frame b) k m brk len).map fun r => ((r.2.area brk).stop, r.2)
      else some ((k.area brk).stop, k)
  := by
  rw [syscallBrk, hbrk]
  dsimp only
  rw [← hlen]
  cases procmmResize (frame b) k m brk len with
  | none => rfl
  | some r => rfl

/-- `procmm_resize` for an area that is to grow, up to the next area at most. -/
theorem procmmResize_of_lt {a next len stop : Nat} (hnext : (k.link a).next = some next)
    (hgrow : ((k.area a).stop + 2 ^ 64 - (k.area a).start) % 2 ^ 64 < len)
    (hle : (k.area a).start ≤ (k.area next).start) (hlt : (k.area next).start < 2 ^ 64)
    (hstop : stop = min (incptr (k.area a).start len) (k.area next).start) :
  procmmResize (frame b) k m a len
    = (mapPages (frame b) (turns (nextPage (k.area a).stop) stop + 1) k.machine (k.map m).P4
        (nextPage (k.area a).stop) stop).map fun s =>
      (if incptr (k.area a).start len > (k.area next).start then
          ((k.area next).start + 2 ^ 64 - (k.area a).start) % 2 ^ 64
        else len, (k.setStop a stop).withMachine s)
  := by
  obtain ⟨len', hlen'⟩ : ∃ len', len' = if incptr (k.area a).start len > (k.area next).start then
      ((k.area next).start + 2 ^ 64 - (k.area a).start) % 2 ^ 64 else len := ⟨_, rfl⟩
  have hstop' : incptr (k.area a).start len' = stop := by
    rw [hlen']
    split_ifs with hlimit
    · rw [hstop, Nat.min_eq_right (Nat.le_of_lt hlimit), incptr]
      omega
    · rw [hstop, Nat.min_eq_left (Nat.le_of_not_lt hlimit)]
  rw [procmmResize]
  dsimp only
  rw [if_pos hgrow, hnext]
  dsimp only
  rw [if_neg (Nat.not_lt.mpr hle), ← hlen', hstop']
  cases mapPages (frame b) (turns (nextPage (k.area a).stop) stop + 1) k.machine (k.map m).P4
      (nextPage (k.area a).stop) stop with
  | none => rfl
  | some s => rfl

/-- What `brk` does for an address above the break. -/
theorem Bounded.syscallBrk_eq (h : Bounded b own r m brk stack k) (hlt : (k.area brk).stop < addr)
    (haddr : addr < 2 ^ 64) {stop : Nat} (hmin : stop = min addr (k.area stack).start) :
  syscallBrk (frame b) k m addr
    = (mapPages (frame b) (turns (nextPage (k.area brk).stop) stop + 1) k.machine (frame r)
        (nextPage (k.area brk).stop) stop).map fun s => (stop, (k.setStop brk stop).withMachine s)
  := by
  have htop := h.top
  have hbelow := h.below
  have hstart := h.le
  rw [userspaceTop] at htop
  obtain ⟨len, hlen⟩ : ∃ len, len = (addr + 2 ^ 64 - (k.area brk).start) % 2 ^ 64 := ⟨_, rfl⟩
  have hne : addr ≠ 0 := by omega
  have hgrow : ((k.area brk).stop + 2 ^ 64 - (k.area brk).start) % 2 ^ 64 < len := by
    omega
  have hstop : stop = min (incptr (k.area brk).start len) (k.area stack).start := by
    rw [incptr]
    omega
  rw [syscallBrk_of_brk h.hasBrk hlen, if_pos hne,
    procmmResize_of_lt h.next hgrow (Nat.le_trans hstart hbelow) (by omega) hstop, h.P4,
    Option.map_map]
  apply congrArg (Option.map · _)
  funext s
  rw [Function.comp_apply, Kernel.withMachine_area, Kernel.setStop_area, Function.update_self]

/-- What `brk` does when the break is to grow. -/
theorem Growing.syscallBrk_eq (h : Growing b own r m brk stack k) (hask : Asks k m addr) :
  (k.area brk).stop < addr ∧ addr ≤ userspaceTop
    ∧ syscallBrk (frame b) k m addr
      = (mapPages (frame b) (turns (nextPage (k.area brk).stop) addr + 1) k.machine (frame r)
          (nextPage (k.area brk).stop) addr).map fun s => (addr, (k.setStop brk addr).withMachine s)
  := by
  obtain ⟨brk', stack', hbrk, hstack, hlt, hle⟩ := hask
  obtain rfl := Option.some.inj (h.hasBrk.symm.trans hbrk)
  obtain rfl := Option.some.inj (h.hasStack.symm.trans hstack)
  have hbounded : Bounded b own r m brk stack k :=
    ⟨h.ready, h.live, h.P4, h.hasBrk, h.hasStack, h.next, h.ne, h.le, by omega, Nat.le_of_eq h.top⟩
  have htop := hle
  rw [h.top] at htop
  refine ⟨hlt, htop, ?_⟩
  apply hbounded.syscallBrk_eq hlt
  · rw [userspaceTop] at htop
    omega
  · rw [Nat.min_eq_left hle]

/-- A call of `brk` for a larger break, when it returns. -/
theorem Growing.syscallBrk {v : Nat} (h : Growing b own r m brk stack k) (hask : Asks k m addr)
    (hcall : syscallBrk (frame b) k m addr = some (v, k')) :
  v = addr ∧ (k'.map m).brk = some brk ∧ (k'.area brk).stop = addr
    ∧ (k'.area brk).start = (k.area brk).start
    ∧ (∀ c < userspaceTop, lookup (words k.machine.mem) r c ≠ 0 →
        lookup (words k'.machine.mem) r c = lookup (words k.machine.mem) r c)
    ∧ (Inside k m → Growing b own r m brk stack k')
    ∧ ((k.area brk).stop % pageSize = 0 →
        lookup (words k'.machine.mem) r (k.area brk).stop = 0)
  := by
  obtain ⟨hlt, hle, heq⟩ := h.syscallBrk_eq hask
  obtain ⟨fs, hready⟩ := h.ready
  have hroot : k.Root r := ⟨m, h.live, h.P4⟩
  rw [hcall] at heq
  obtain ⟨s, hpages, hpair⟩ := Option.map_eq_some_iff.mp heq.symm
  obtain ⟨rfl, rfl⟩ := Prod.mk.inj hpair
  obtain ⟨s', used, fs', rfl, -, hpages', hsound, hgrows, hmapping⟩ | ⟨-, hnone⟩ :=
    hready.sound.mapPages (p := nextPage (k.area brk).stop) hroot hle (Nat.lt_succ_self _)
  · rw [hpages] at hpages'
    obtain rfl := Option.some.inj hpages'
    have htop := hle
    rw [userspaceTop] at htop
    have hnext := lt_nextPage (show (k.area brk).stop + pageSize < 2 ^ 64 by
      rw [pageSize]
      omega)
    have hstep : ∀ {c}, c < userspaceTop → (Stepped (nextPage (k.area brk).stop) addr c
        ↔ nextPage (k.area brk).stop ≤ c ∧ stripFlags c < addr) :=
      fun hc => stepped_iff hnext.2.1 hle hc
    have hbelow : ∀ {c}, nextPage (k.area brk).stop ≤ c → (k.area brk).stop ≤ stripFlags c := by
      intro c hc
      rw [stripFlags]
      rw [pageSize] at hnext ⊢
      omega
    have hother : ∀ {c}, ¬ Stepped (nextPage (k.area brk).stop) addr c →
        lookup (words s.mem) r c = lookup (words k.machine.mem) r c :=
      fun hnot => hmapping.other (Or.inr hroot) fun hand => hnot hand.2
    have hkeep : ∀ c < userspaceTop, lookup (words k.machine.mem) r c ≠ 0 →
        lookup (words s.mem) r c = lookup (words k.machine.mem) r c := by
      intro c hc hne
      apply hother
      rw [hstep hc]
      rintro ⟨hpage, -⟩
      exact hne (h.above c hc (hbelow hpage))
    have harea : ((k.setStop brk addr).withMachine s).area brk = { k.area brk with stop := addr } := by
      rw [Kernel.withMachine_area, Kernel.setStop_area, Function.update_self]
    refine ⟨rfl, h.hasBrk, ?_, ?_, hkeep, ?_, ?_⟩
    · rw [harea]
    · rw [harea]
    · intro hinside
      have hmod := hinside brk h.hasBrk
      have hmod' := h.aligned
      have hstart := h.le
      refine ⟨⟨fs', ?_⟩, h.live, h.P4, h.hasBrk, h.hasStack, h.next, h.ne, ?_, ?_, ?_, ?_, ?_⟩
      · exact hready.of_sound rfl rfl (fun _ => rfl) hready.heap hsound
      · rw [Kernel.withMachine_area, Kernel.setStop_area, Function.update_of_ne h.ne]
        exact h.top
      · rw [harea]
        exact h.aligned
      · rw [harea]
        dsimp only
        omega
      · rw [harea]
        intro c hc hc'
        dsimp only at hc hc'
        have hlow : ∀ x, (k.area brk).start ≤ x → x < (k.area brk).stop →
            lookup (words s.mem) r x ≠ 0 := by
          intro x hx hx'
          rw [hkeep x (by rw [userspaceTop]; omega) (h.mapped x hx hx')]
          exact h.mapped x hx hx'
        by_cases hold : c < (k.area brk).stop
        · exact hlow c hc hold
        · by_cases hpage : nextPage (k.area brk).stop ≤ c
          · have hstrip := Nat.div_mul_le_self c pageSize
            obtain ⟨f, -, hentry⟩ := hmapping.page ((hstep (by rw [userspaceTop]; omega)).mpr
              ⟨hpage, Nat.lt_of_le_of_lt hstrip hc'⟩)
            rw [Kernel.withMachine_machine, hentry]
            exact (userFlags_entry f).1
          · -- the rest of the page of the old break
            have hdiv : c / pageSize = ((k.area brk).stop - 1) / pageSize := by
              rw [pageSize] at hmod hnext ⊢
              omega
            rw [Kernel.withMachine_machine, lookup_of_div_eq _ _ hdiv]
            rw [pageSize] at hmod hmod'
            apply hlow
            · omega
            · omega
      · rw [harea]
        intro c hc hstrip
        dsimp only at hstrip
        rw [Kernel.withMachine_machine, hother]
        · exact h.above c hc (by omega)
        · rw [hstep hc]
          omega
    · intro hmod
      have hstrip : stripFlags (k.area brk).stop = (k.area brk).stop := by
        rw [stripFlags]
        rw [pageSize] at hmod ⊢
        omega
      rw [Kernel.withMachine_machine, hother]
      · exact h.above _ (Nat.lt_of_lt_of_le hlt hle) (Nat.le_of_eq hstrip.symm)
      · rw [hstep (Nat.lt_of_lt_of_le hlt hle)]
        omega
  · rw [hpages] at hnone
    cases hnone

/-- A call of `brk` for a larger break returns, when there are frames for it. -/
theorem Growing.exists_syscallBrk (h : Growing b own r m brk stack k) (hready : Ready b own fs k)
    (hask : Asks k m addr) (hframes : 4 * turns (nextPage (k.area brk).stop) addr ≤ fs.length) :
  ∃ k', Procmm.syscallBrk (frame b) k m addr = some (addr, k')
  := by
  obtain ⟨-, hle, heq⟩ := h.syscallBrk_eq hask
  have hroot : k.Root r := ⟨m, h.live, h.P4⟩
  obtain ⟨s, -, -, -, -, hpages, -⟩ | ⟨hlt, -⟩ :=
    hready.sound.mapPages (p := nextPage (k.area brk).stop) hroot hle (Nat.lt_succ_self _)
  · rw [hpages, Option.map_some] at heq
    exact ⟨_, heq⟩
  · omega

/-- The last areas of a list follow one another. -/
theorem AreaList.next {xs : List Nat} {x y : Nat} (h : AreaList k m (xs ++ [x, y])) :
  (k.link x).next = some y ∧ y ≠ x
  := by
  have hlinks := h.rep.links
  have hnodup := (List.nodup_append.mp h.rep.nodup).2.1
  rw [hlinks]
  refine ⟨rfl, ?_⟩
  rintro rfl
  exact (List.nodup_cons.mp hnodup).1 List.mem_cons_self

end Break

/-! ### Runs -/

section Runs

variable {b r m addr data size : Nat} {own : Nat → Prop} {fs : List Nat} {grow : Nat → Nat}
  {argv envp : List (List UInt8)} {k k' : Kernel} {th : ElfThread}

/-- The process has its arguments, and its break can grow. -/
theorem Executed.growing {start : Nat} {fs' : List Nat}
    (h : Executed b own r m (argLength argv envp) fs fs' start k) (hown : own r)
    (hfs : ∀ f ∈ fs, frame f < 2 ^ 39) :
  ∃ mem brk stack, (k.map m).brk = some brk ∧ (k.area brk).start = start
    ∧ (k.area brk).stop = start + argLength argv envp
    ∧ writeArguments (k.map m).P4 k.machine start argv envp = some (k.machine.withMem mem)
    ∧ Growing b own r m brk stack (k.withMachine (k.machine.withMem mem))
  := by
  obtain ⟨zs, brk, hlist, hbrk, harea, hstack, harea'⟩ := h.list
  obtain ⟨hnext, hne⟩ := hlist.next
  have htop := h.top
  obtain ⟨mem, hwrite, hready, -, hlookup, -⟩ := @Ready.writeArguments b r m own fs' argv envp k start
    (argLength argv envp) h.ready hown h.P4 h.aligned (Nat.le_of_lt htop) (Nat.le_succ _)
    (h.userPages hfs)
  have hroot : k.Root r := ⟨m, h.live, h.P4⟩
  have hsame : ∀ c, lookup (words mem) r c = lookup (words k.machine.mem) r c :=
    fun c => hlookup r c (Or.inr hroot)
  refine ⟨mem, brk, brk + 1, hbrk, ?_, ?_, hwrite, ⟨fs', hready⟩, h.live, h.P4, hbrk, hstack, hnext,
    hne, ?_, ?_, ?_, ?_, ?_⟩
  · rw [harea]
  · rw [harea]
  · rw [Kernel.withMachine_area, harea']
  · rw [Kernel.withMachine_area, harea]
    exact h.aligned
  · rw [Kernel.withMachine_area, harea]
    exact Nat.le_add_right _ _
  · rw [Kernel.withMachine_area, harea]
    intro c hc hc'
    dsimp only at hc hc'
    obtain ⟨f, -, hentry⟩ := h.page ((stepped_iff h.aligned (Nat.le_of_lt htop)
      (by omega)).mpr ⟨hc, Nat.lt_of_le_of_lt (Nat.div_mul_le_self c pageSize) hc'⟩)
    rw [Kernel.withMachine_machine, Machine.withMem_mem, hsame, hentry]
    exact (userFlags_entry f).1
  · rw [Kernel.withMachine_area, harea]
    intro c hc hstrip
    dsimp only at hstrip
    rw [Kernel.withMachine_machine, Machine.withMem_mem, hsame]
    have hle := Nat.div_mul_le_self c pageSize
    rw [stripFlags] at hstrip
    apply h.above c (by omega) hc
    rw [stepped_iff h.aligned (Nat.le_of_lt htop) hc, stripFlags]
    omega

/-- The break of a new process can grow. -/
theorem Prepared.growing (h : Prepared b own r m fs data size k)
    (hps : ∀ p ∈ segments (kernelMemory (frame b) k.machine) data, p.Loadable)
    (hasc : AscendingSegments (segments (kernelMemory (frame b) k.machine) data))
    (hargs : argLength argv envp < 2 ^ 31)
    (hcall : execElf (frame b) grow k m data argv envp = some (th, k'))
    (hask : Asks k' m addr) :
  ∃ brk stack, Growing b own r m brk stack k'
  := by
  obtain ⟨k₁, start, k₂, brk, s, hload, hsetup, hbrk, hwrite, rfl, -, -⟩ := execElf_cases hcall
  obtain ⟨used, fs₁, zs, rfl, -, hlaid, -⟩ := h.loaded hps hasc (h.loadElf hps hload hsetup)
  obtain ⟨last, -, -, -, -, hlast, hstart, -⟩ := procmmSetup_cases hsetup
  rw [hlaid.list.rep.last] at hlast
  obtain ⟨hbrkArea, hstackArea⟩ := procmmSetup_areas hsetup
  -- the break lies below the stack
  have hend : EndOf (segments (kernelMemory (frame b) k.machine) data) (k₁.area last).stop →
      (k₁.area last).stop ≤ userspaceTop
        ∧ nextPage (k₁.area last).stop + argLength argv envp < userspaceTop := by
    rintro ⟨p, hp, heq⟩
    have hstop : (k₁.area last).stop ≤ userspaceTop := by
      rw [heq]
      exact (hps p hp).2
    obtain ⟨brk', stack, hbrk', hstack, hlt, hle⟩ := hask
    rw [Kernel.withMachine_map] at hbrk' hstack
    rw [Kernel.withMachine_area] at hlt hle
    rw [(hbrkArea brk' hbrk').2] at hlt
    rw [hstackArea stack hstack] at hle
    dsimp only at hlt hle
    rw [userspaceTop] at hstop hle ⊢
    have hnext := lt_nextPage (show (k₁.area last).stop + pageSize < 2 ^ 64 by
      rw [pageSize]
      omega)
    rw [← hstart] at hnext ⊢
    rw [pageSize] at hnext
    rw [incptr_of_lt (by omega)] at hlt
    omega
  obtain ⟨used', fs', hfs, hexecuted⟩ := hlaid.procmmSetup hlast hend hsetup
  obtain ⟨mem, brk', stack, hbrk', hbrkStart, -, hwrite', hgrowing⟩ := hexecuted.growing h.own
    fun f hf => (h.ready.sound.unused f (List.mem_append_right _ hf)).1
  obtain rfl := Option.some.inj (hbrk.symm.trans hbrk')
  rw [hbrkStart, hwrite'] at hwrite
  obtain rfl := Option.some.inj hwrite
  exact ⟨brk, stack, hgrowing⟩

/-- `exec_elf` returns, when there are frames for it. -/
theorem Prepared.exists_execElf (h : Prepared b own r m fs data size k)
    (himage : Executable (kernelMemory (frame b) k.machine) data (argLength argv envp))
    (hroom : k.heapBrk + pageSize * heapPages grow (k.areas + k.maps)
      ((segments (kernelMemory (frame b) k.machine) data).length + 2) ≤ 2 ^ 64)
    (hframes : execFrames grow k (segments (kernelMemory (frame b) k.machine) data)
      (argLength argv envp) ≤ fs.length) :
  ∃ th k' brk stack, execElf (frame b) grow k m data argv envp = some (th, k')
    ∧ (∃ p ∈ segments (kernelMemory (frame b) k.machine) data,
        (k'.area brk).stop = nextPage (p.virtualAddress + p.memSize) + argLength argv envp)
    ∧ Growing b own r m brk stack k'
  := by
  obtain ⟨k₁, start, k₂, used, fs', hload, hsetup, ⟨p, hp, heq⟩, rfl, hexecuted⟩ :=
    h.exists_setup himage hroom hframes
  obtain ⟨mem, brk, stack, hbrk, hstart, hstop, hwrite, hgrowing⟩ := hexecuted.growing h.own
    fun f hf => (h.ready.sound.unused f hf).1
  rw [← hstart] at hwrite
  refine ⟨_, _, brk, stack, execElf_of_calls hload hsetup hbrk hwrite, ?_, hgrowing⟩
  refine ⟨p, hp, ?_⟩
  rw [Kernel.withMachine_area, hstop, heq]

/-- One call of `brk` for a larger break, at a break inside a page. -/
def BrkStep (b m : Nat) (k k' : Kernel) : Prop :=
  ∃ addr v, Asks k m addr ∧ Inside k m ∧ syscallBrk (frame b) k m addr = some (v, k')

/-- The break can grow as long as it has only grown inside of pages. -/
theorem Prepared.growing_of_run (h : Prepared b own r m fs data size k)
    (hps : ∀ p ∈ segments (kernelMemory (frame b) k.machine) data, p.Loadable)
    (hasc : AscendingSegments (segments (kernelMemory (frame b) k.machine) data))
    (hargs : argLength argv envp < 2 ^ 31)
    (hrun : Reachable (fun k₁ => ∃ th, execElf (frame b) grow k m data argv envp = some (th, k₁))
      (BrkStep b m) k') :
  ∀ {addr}, Asks k' m addr → ∃ brk stack, Growing b own r m brk stack k'
  := by
  apply hrun.invariant
  · rintro k₁ ⟨th, hcall⟩ addr hask
    exact h.growing hps hasc hargs hcall hask
  · rintro k₁ k₂ ih ⟨addr, v, hask, hinside, hcall⟩ -  -
    obtain ⟨brk, stack, hgrowing⟩ := ih hask
    obtain ⟨-, -, -, -, -, hnext, -⟩ := hgrowing.syscallBrk hask hcall
    exact ⟨brk, stack, hnext hinside⟩

/-- A call of `brk` after calls at breaks inside a page returns the new break when there are frames
for it, and keeps the pages that are mapped; it leaves all addresses before the break mapped just
when it is itself made at a break inside a page. -/
theorem syscallBrk_covers_of_run (h : Prepared b own r m fs data size k)
    (hps : ∀ p ∈ segments (kernelMemory (frame b) k.machine) data, p.Loadable)
    (hasc : AscendingSegments (segments (kernelMemory (frame b) k.machine) data))
    (hargs : argLength argv envp < 2 ^ 31)
    (hrun : Reachable (fun k₁ => ∃ th, execElf (frame b) grow k m data argv envp = some (th, k₁))
      (BrkStep b m) k')
    (hask : Asks k' m addr) :
  (∃ fs' brk, Stacked fs' k'.machine ∧ (k'.map m).brk = some brk
      ∧ (4 * turns (nextPage (k'.area brk).stop) addr ≤ fs'.length →
        ∃ k'', syscallBrk (frame b) k' m addr = some (addr, k'')))
    ∧ ∀ v k'', syscallBrk (frame b) k' m addr = some (v, k'') →
      v = addr
      ∧ (∀ c < userspaceTop, lookup (words k'.machine.mem) r c ≠ 0 →
          lookup (words k''.machine.mem) r c = lookup (words k'.machine.mem) r c)
      ∧ (Covered k'' m r ↔ Inside k' m)
  := by
  obtain ⟨brk, stack, hgrowing⟩ := h.growing_of_run hps hasc hargs hrun hask
  obtain ⟨fs', hready⟩ := hgrowing.ready
  refine ⟨⟨fs', brk, hready.sound.stack, hgrowing.hasBrk, hgrowing.exists_syscallBrk hready hask⟩, ?_⟩
  intro v k'' hcall
  obtain ⟨hv, hbrk, hstop, hstart, hkeep, hnext, haligned⟩ := hgrowing.syscallBrk hask hcall
  refine ⟨hv, hkeep, ?_⟩
  constructor
  · intro hcovered brk' hbrk' hmod
    obtain rfl := Option.some.inj (hgrowing.hasBrk.symm.trans hbrk')
    obtain ⟨hlt, -⟩ := hgrowing.syscallBrk_eq hask
    apply hcovered brk hbrk (k'.area brk).stop
    · rw [hstart]
      exact hgrowing.le
    · rw [hstop]
      exact hlt
    · exact haligned hmod
  · intro hinside brk' hbrk'
    obtain rfl := Option.some.inj (hbrk.symm.trans hbrk')
    exact (hnext hinside).mapped

end Runs

/-! ### A first process -/

/-- A first process with its break at `0x2036`. -/
theorem exists_executed :
  ∃ fs k th k' brk stack, Stored oneSegment fs k
    ∧ execElf (frame 16) (fun _ => 0) k 0 imageStart oneArgument [] = some (th, k')
    ∧ (k'.area brk).stop = 0x2036
    ∧ Growing 16 (withRoot 32 fun _ => False) 32 0 brk stack k'
  := by
  obtain ⟨fs, k, h⟩ := @exists_stored oneSegment (imageWords_lt (by decide)) rfl rfl rfl
  obtain ⟨himage, hroom, hframes⟩ := h.executable
  obtain ⟨th, k', brk, stack, hexec, ⟨p, hp, hstop⟩, hgrowing⟩ :=
    h.prepared.exists_execElf himage hroom hframes
  rw [h.segments] at hp
  rw [List.mem_singleton.mp hp] at hstop
  exact ⟨fs, k, th, k', brk, stack, h, hexec, hstop, hgrowing⟩

/-- The break may grow up to the stack. -/
theorem Growing.asks {b r m brk stack addr : Nat} {own : Nat → Prop} {k : Kernel}
    (h : Growing b own r m brk stack k) (hlt : (k.area brk).stop < addr) (hle : addr ≤ userspaceTop) :
  Asks k m addr
  := by
  refine ⟨brk, stack, h.hasBrk, h.hasStack, hlt, ?_⟩
  rw [h.top]
  exact hle

/-- The break is inside a page when its end is. -/
theorem Growing.inside {b r m brk stack : Nat} {own : Nat → Prop} {k : Kernel}
    (h : Growing b own r m brk stack k) (hmod : (k.area brk).stop % pageSize ≠ 0) :
  Inside k m
  := by
  intro brk' hbrk'
  obtain rfl := Option.some.inj (h.hasBrk.symm.trans hbrk')
  exact hmod

/-- The break of a first process grows to the end of its page. -/
theorem syscallBrk_covers_oneSegment :
  ∃ fs k th k' v k'', Stored oneSegment fs k
    ∧ execElf (frame 16) (fun _ => 0) k 0 imageStart oneArgument [] = some (th, k')
    ∧ syscallBrk (frame 16) k' 0 0x3000 = some (v, k'')
    ∧ v = 0x3000 ∧ Covered k'' 0 32
  := by
  obtain ⟨fs, k, th, k', brk, stack, h, hexec, hstop, hgrowing⟩ := exists_executed
  obtain ⟨himage, -, -⟩ := h.executable
  have hask : Asks k' 0 0x3000 := hgrowing.asks (by rw [hstop]; decide) (by decide)
  obtain ⟨⟨fs', brk', -, hbrk', hreturns⟩, hcovers⟩ := syscallBrk_covers_of_run h.prepared
    himage.loadable himage.ascending (by decide) (.start ⟨th, hexec⟩) hask
  obtain rfl := Option.some.inj (hgrowing.hasBrk.symm.trans hbrk')
  have hturns : turns (nextPage 0x2036) 0x3000 = 0 := by decide
  obtain ⟨k'', hcall⟩ := hreturns (by rw [hstop, hturns]; exact Nat.zero_le _)
  obtain ⟨hv, -, hiff⟩ := hcovers _ _ hcall
  exact ⟨fs, k, th, k', _, k'', h, hexec, hcall, hv,
    hiff.mpr (hgrowing.inside (by rw [hstop]; decide))⟩

/-- After `brk(0x3000)` and `brk(0x3001)`, the page at `0x3000` is not mapped. -/
theorem syscallBrk_misses_page :
  ∃ fs k th k₁ k₂ k₃, Stored oneSegment fs k
    ∧ execElf (frame 16) (fun _ => 0) k 0 imageStart oneArgument [] = some (th, k₁)
    ∧ Asks k₁ 0 0x3000 ∧ syscallBrk (frame 16) k₁ 0 0x3000 = some (0x3000, k₂)
    ∧ Asks k₂ 0 0x3001 ∧ syscallBrk (frame 16) k₂ 0 0x3001 = some (0x3001, k₃)
    ∧ lookup (words k₃.machine.mem) 32 0x3000 = 0 ∧ ¬ Covered k₃ 0 32
  := by
  obtain ⟨fs, k, th, k₁, brk, stack, h, hexec, hstop, hgrowing⟩ := exists_executed
  have hask : Asks k₁ 0 0x3000 := hgrowing.asks (by rw [hstop]; decide) (by decide)
  have hturns : turns (nextPage 0x2036) 0x3000 = 0 := by decide
  have hturns' : turns (nextPage 0x3000) 0x3001 = 0 := by decide
  -- the first call, up to the end of the page
  obtain ⟨fs₁, hready⟩ := hgrowing.ready
  obtain ⟨k₂, hcall⟩ := hgrowing.exists_syscallBrk hready hask
    (by rw [hstop, hturns]; exact Nat.zero_le _)
  obtain ⟨-, -, hstop', hstart, -, hnext, -⟩ := hgrowing.syscallBrk hask hcall
  have hgrowing' := hnext (hgrowing.inside (by rw [hstop]; decide))
  -- the second call, past it
  have hask' : Asks k₂ 0 0x3001 := hgrowing'.asks (by rw [hstop']; decide) (by decide)
  obtain ⟨fs₂, hready'⟩ := hgrowing'.ready
  obtain ⟨k₃, hcall'⟩ := hgrowing'.exists_syscallBrk hready' hask'
    (by rw [hstop', hturns']; exact Nat.zero_le _)
  obtain ⟨-, hbrk, hstop'', hstart', -, -, hmissing⟩ := hgrowing'.syscallBrk hask' hcall'
  rw [hstop'] at hmissing
  refine ⟨fs, k, th, k₁, k₂, k₃, h, hexec, hask, hcall, hask', hcall', hmissing (by decide), ?_⟩
  intro hcovered
  apply hcovered brk hbrk 0x3000
  · have hle := hgrowing'.le
    rw [hstart']
    rw [hstop'] at hle
    exact hle
  · rw [hstop'']
    decide
  · exact hmissing (by decide)

end Procmm
