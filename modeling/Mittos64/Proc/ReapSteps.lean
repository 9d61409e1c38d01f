import Mittos64.Proc.ReapInv

/-!
# Every step keeps the invariant

First what each kind of change to the system keeps, and then the steps of `scheduler()` and
`schedule()`, of `process_free`, and of the threads, one after the other.
-/

open Scheduler (ThreadState)

namespace Reap

variable {C P : Type}

section Steps

variable [DecidableEq C] [DecidableEq P] {init : P} {s : System C P} {loc : P → Loc C P}
  {freer : P → Option (P × Stage)} {c : C} {p q : P} {s' : System C P}

/-! ### Changes to the system -/

omit [DecidableEq P] in
/-- A processor goes on with the same thread in its hand. -/
theorem Inv.setCpu (h : Inv init s loc freer) {x : Cpu P} (hhand : x.hand = (s.cpu c).hand)
    (hok : x.Ok init) (hknows : ∀ p, x.hand = some p → x.pc.Knows (s.process p).point) :
  Inv init (s.setCpu c x) loc freer
  := by
  constructor
  case hand =>
    intro c' p
    rcases eq_or_ne c' c with rfl | hc
    · rw [System.setCpu_self, hhand]
      exact h.hand c' p
    · rw [System.setCpu_of_ne s x hc]
      exact h.hand c' p
  case queue => exact h.queue
  case nodup => exact h.nodup
  case fork => exact h.fork
  case free => exact h.free
  case process => exact h.process
  case cpu =>
    intro c'
    rcases eq_or_ne c' c with rfl | hc
    · rw [System.setCpu_self]
      exact hok
    · rw [System.setCpu_of_ne s x hc]
      exact h.cpu c'
  case knows =>
    intro c' p
    rcases eq_or_ne c' c with rfl | hc
    · rw [System.setCpu_self]
      exact hknows p
    · rw [System.setCpu_of_ne s x hc]
      exact h.knows c' p
  case init => exact h.init

omit [DecidableEq C] in
theorem System.setProcess_point (s : System C P) {y : Process P}
    (hpoint : y.point = (s.process p).point) (q : P) :
  ((s.setProcess p y).process q).point = (s.process q).point
  := by
  rcases eq_or_ne q p with rfl | hq
  · rw [System.setProcess_self, hpoint]
  · rw [System.setProcess_of_ne s y hq]

omit [DecidableEq C] in
theorem System.setThreadState_point (s : System C P) (p q : P) (v : ThreadState) :
  ((s.setThreadState p v).process q).point = (s.process q).point
  := s.setProcess_point (y := { s.process p with threadState := v }) rfl q

omit [DecidableEq C] in
theorem System.setState_point (s : System C P) (p q : P) (v : ProcState) :
  ((s.setState p v).process q).point = (s.process q).point
  := s.setProcess_point (y := { s.process p with state := v }) rfl q

omit [DecidableEq C] in
/-- The fields of a process change, but not whether its thread frees a child or has made one. -/
theorem Inv.setProcess (h : Inv init s loc freer) {y : Process P}
    (hforks : y.point.forks = (s.process p).point.forks)
    (hfrees : y.point.frees = (s.process p).point.frees)
    (hknows : ∀ c, (s.cpu c).hand = some p → (s.cpu c).pc.Knows y.point)
    (hok : y.Ok (loc p) (freer p)) (hinit : p = init → y.parent = none ∧ y.Clean) :
  Inv init (s.setProcess p y) loc freer
  := by
  constructor
  case hand => exact h.hand
  case queue => exact h.queue
  case nodup => exact h.nodup
  case fork =>
    intro p' q
    rcases eq_or_ne p' p with rfl | hp
    · rw [System.setProcess_self, hforks]
      exact h.fork p' q
    · rw [System.setProcess_of_ne s y hp]
      exact h.fork p' q
  case free =>
    intro p' q stage
    rcases eq_or_ne p' p with rfl | hp
    · rw [System.setProcess_self, hfrees]
      exact h.free p' q stage
    · rw [System.setProcess_of_ne s y hp]
      exact h.free p' q stage
  case process =>
    intro p'
    rcases eq_or_ne p' p with rfl | hp
    · rw [System.setProcess_self]
      exact hok
    · rw [System.setProcess_of_ne s y hp]
      exact h.process p'
  case cpu => exact h.cpu
  case knows =>
    intro c p' hp'
    rcases eq_or_ne p' p with rfl | hp
    · rw [System.setProcess_self]
      exact hknows c hp'
    · rw [System.setProcess_of_ne s y hp]
      exact h.knows c p' hp'
  case init =>
    rcases eq_or_ne init p with rfl | hp
    · rw [System.setProcess_self]
      have hmade := hok.made.mpr ((h.process init).made.mp h.init.1)
      exact ⟨hmade, (hinit rfl).1, h.init.2.2.1, (hinit rfl).2⟩
    · rw [System.setProcess_of_ne s y hp]
      exact h.init

omit [DecidableEq C] [DecidableEq P] in
/-- A process that keeps its parent, and of which nothing is freed, may be `init`. -/
theorem Inv.keep_init (h : Inv init s loc freer) {y : Process P}
    (hsame : y.parent = (s.process p).parent ∧ y.threadFreed = (s.process p).threadFreed
      ∧ y.procFreed = (s.process p).procFreed ∧ y.mapFreed = (s.process p).mapFreed) :
  p = init → y.parent = none ∧ y.Clean
  := by
  rintro rfl
  obtain ⟨_, hparent, _, hclean⟩ := h.init
  obtain ⟨hparent', hthread, hproc, hmap⟩ := hsame
  exact ⟨hparent'.trans hparent, hthread.trans hclean.thread, hproc.trans hclean.proc,
    hmap.trans hclean.map⟩

/-- A processor gives the thread away that it has in its hand. -/
theorem Inv.release (h : Inv init s loc freer) (hhand : (s.cpu c).hand = some p) {x : Cpu P}
    (hx : x.hand = none) (hok : x.Ok init) {y : Process P} {l : Loc C P} {rest : List P}
    (hpoint : y.point = (s.process p).point) (hy : y.Ok l (freer p))
    (hinit : p = init → y.parent = none ∧ y.Clean)
    (hl : l = .done ∧ rest = s.readyQueue ∨ l = .queued ∧ rest = s.readyQueue ++ [p]) :
  Inv init { (s.setProcess p y).setCpu c x with readyQueue := rest } (Function.update loc p l) freer
  := by
  have hloc := (h.hand c p).mp hhand
  have hqueued : p ∉ s.readyQueue := by
    rw [h.queue, hloc]
    nofun
  have hsame := s.setProcess_point hpoint
  constructor
  case hand =>
    intro c' p'
    have hold := h.hand c' p'
    simp only [System.setCpu, System.setProcess, Function.update_apply]
    grind
  case queue =>
    intro p'
    have hold := h.queue p'
    simp only [Function.update_apply]
    grind
  case nodup =>
    rcases hl with ⟨_, rfl⟩ | ⟨_, rfl⟩
    · exact h.nodup
    · exact h.nodup.append (List.nodup_singleton p) (List.disjoint_singleton.mpr hqueued)
  case fork =>
    intro p' q
    have hold := h.fork p' q
    rw [← hsame] at hold
    refine hold.trans ?_
    simp only [Function.update_apply]
    grind
  case free =>
    intro p' q stage
    have hold := h.free p' q stage
    rw [← hsame] at hold
    exact hold
  case process =>
    intro p'
    change ((s.setProcess p y).process p').Ok _ _
    rcases eq_or_ne p' p with rfl | hp
    · rw [System.setProcess_self, Function.update_self]
      exact hy
    · rw [System.setProcess_of_ne s y hp, Function.update_of_ne hp]
      exact h.process p'
  case cpu =>
    intro c'
    change Cpu.Ok init (((s.setProcess p y).setCpu c x).cpu c')
    rcases eq_or_ne c' c with rfl | hc
    · rw [System.setCpu_self]
      exact hok
    · rw [System.setCpu_of_ne _ x hc]
      exact h.cpu c'
  case knows =>
    intro c' p' hp'
    change (((s.setProcess p y).setCpu c x).cpu c').hand = some p' at hp'
    change (((s.setProcess p y).setCpu c x).cpu c').pc.Knows ((s.setProcess p y).process p').point
    rw [hsame]
    rcases eq_or_ne c' c with rfl | hc
    · rw [System.setCpu_self, hx] at hp'
      cases hp'
    · rw [System.setCpu_of_ne _ x hc] at hp' ⊢
      exact h.knows c' p' hp'
  case init =>
    change ((s.setProcess p y).process init).made = true
      ∧ ((s.setProcess p y).process init).parent = none
      ∧ freer init = none ∧ ((s.setProcess p y).process init).Clean
    rcases eq_or_ne init p with rfl | hp
    · rw [System.setProcess_self]
      have hmade : y.made = true := by
        apply hy.made.mpr
        rcases hl with ⟨rfl, _⟩ | ⟨rfl, _⟩
        · nofun
        · nofun
      exact ⟨hmade, (hinit rfl).1, h.init.2.2.1, (hinit rfl).2⟩
    · rw [System.setProcess_of_ne s y hp]
      exact h.init

/-- A processor takes the first thread of the ready queue. -/
theorem Inv.take (h : Inv init s loc freer) (hhand : (s.cpu c).hand = none) {rest : List P}
    (hqueue : s.readyQueue = p :: rest) {x : Cpu P} (hx : x.hand = some p) (hok : x.Ok init)
    (hknows : x.pc.Knows (s.process p).point) (hp : (s.process p).Ok (.held c) (freer p)) :
  Inv init { s.setCpu c x with readyQueue := rest } (Function.update loc p (.held c)) freer
  := by
  have hnodup := h.nodup
  rw [hqueue, List.nodup_cons] at hnodup
  have hloc := (h.queue p).mp (hqueue ▸ List.mem_cons_self)
  constructor
  case hand =>
    intro c' p'
    have hold := h.hand c' p'
    simp only [System.setCpu, Function.update_apply]
    grind
  case queue =>
    intro p'
    have hold := h.queue p'
    rw [hqueue] at hold
    simp only [Function.update_apply]
    grind
  case nodup => exact hnodup.2
  case fork =>
    intro p' q
    refine (h.fork p' q).trans ?_
    simp only [Function.update_apply]
    grind
  case free => exact h.free
  case process =>
    intro p'
    rcases eq_or_ne p' p with rfl | hne
    · rw [Function.update_self]
      exact hp
    · rw [Function.update_of_ne hne]
      exact h.process p'
  case cpu =>
    intro c'
    change Cpu.Ok init ((s.setCpu c x).cpu c')
    rcases eq_or_ne c' c with rfl | hc
    · rw [System.setCpu_self]
      exact hok
    · rw [System.setCpu_of_ne _ x hc]
      exact h.cpu c'
  case knows =>
    intro c' p' hp'
    change ((s.setCpu c x).cpu c').hand = some p' at hp'
    change ((s.setCpu c x).cpu c').pc.Knows (s.process p').point
    rcases eq_or_ne c' c with rfl | hc
    · rw [System.setCpu_self] at hp' ⊢
      obtain rfl := Option.some.inj (hx.symm.trans hp')
      exact hknows
    · rw [System.setCpu_of_ne _ x hc] at hp' ⊢
      exact h.knows c' p' hp'
  case init => exact h.init

omit [DecidableEq C] [DecidableEq P] in
/-- What a processor at `pc` knows of the thread in its hand. -/
theorem Inv.knows_at (h : Inv init s loc freer) {pc : Pc P} (hpc : (s.cpu c).pc = pc)
    (hhand : (s.cpu c).hand = some p) :
  pc.Knows (s.process p).point
  := by
  rw [← hpc]
  exact h.knows c p hhand

omit [DecidableEq C] [DecidableEq P] in
/-- No processor has to know where a thread is that runs on one of them. -/
theorem Inv.knows_of_thread (h : Inv init s loc freer) (hpc : (s.cpu c).pc = .thread p)
    (k : Point P) {c' : C} (hp : (s.cpu c').hand = some p) :
  (s.cpu c').pc.Knows k
  := by
  have hheld := (h.hand c p).mp (by rw [Cpu.hand, hpc])
  have hheld' := (h.hand c' p).mp hp
  obtain rfl := Loc.held.inj (hheld.symm.trans hheld')
  rw [hpc]
  trivial

omit [DecidableEq C] in
/-- A thread `p` comes to `k`, and what it does there to another process `q` makes that `z`. -/
theorem Inv.act (h : Inv init s loc freer) (hpc : (s.cpu c).pc = .thread p) (hpq : p ≠ q)
    {k : Point P} {z : Process P} {l : Loc C P} {r : Option (P × Stage)} {v : List P}
    (hexited : (s.process p).point ≠ .exited) (hk : k ≠ .exited ∧ k ≠ .panic)
    (hpoint : z.point = (s.process q).point) (hz : z.Ok l r)
    (hinit : q = init → z.made = true ∧ z.parent = none ∧ r = none ∧ z.Clean)
    (hheld : ∀ c', loc q = .held c' ↔ l = .held c')
    (hqueue : ∀ q', q' ∈ v ↔ Function.update loc q l q' = .queued) (hnodup : v.Nodup)
    (hfork : ∀ p' q', (if p' = p then k else (s.process p').point).forks = some q' ↔
      Function.update loc q l q' = .forked p')
    (hfree : ∀ p' q' stage, (if p' = p then k else (s.process p').point).frees = some (q', stage) ↔
      Function.update freer q r q' = some (p', stage)) :
  Inv init { (s.setProcess q z).setPoint p k with readyQueue := v } (Function.update loc q l)
    (Function.update freer q r)
  := by
  have hhand : (s.cpu c).hand = some p := by rw [Cpu.hand, hpc]
  have hloc := (h.hand c p).mp hhand
  have hself : ((s.setProcess q z).setPoint p k).process p = { s.process p with point := k } := by
    rw [System.setPoint, System.setProcess_self, System.setProcess_of_ne s z hpq]
  have hother : ∀ p', p' ≠ p → ((s.setProcess q z).setPoint p k).process p'
      = (s.setProcess q z).process p' := fun p' hp => System.setProcess_of_ne _ _ hp
  have hpoints : ∀ p', (((s.setProcess q z).setPoint p k).process p').point
      = if p' = p then k else (s.process p').point := by
    intro p'
    split_ifs with hp
    · rw [hp, hself]
    · rw [hother p' hp]
      rcases eq_or_ne p' q with rfl | hq
      · rw [System.setProcess_self, hpoint]
      · rw [System.setProcess_of_ne s z hq]
  constructor
  case hand =>
    intro c' p'
    refine (h.hand c' p').trans ?_
    rcases eq_or_ne p' q with rfl | hq
    · rw [Function.update_self]
      exact hheld c'
    · rw [Function.update_of_ne hq]
  case queue => exact hqueue
  case nodup => exact hnodup
  case fork =>
    intro p' q'
    exact (hpoints p').symm ▸ hfork p' q'
  case free =>
    intro p' q' stage
    exact (hpoints p').symm ▸ hfree p' q' stage
  case process =>
    intro p'
    change (((s.setProcess q z).setPoint p k).process p').Ok _ _
    rcases eq_or_ne p' p with rfl | hp
    · have hold := h.process p'
      rw [hself, Function.update_of_ne hpq, Function.update_of_ne hpq]
      rw [hloc] at hold ⊢
      exact hold.setPoint hexited hk.1 hk.2
    · rw [hother p' hp]
      rcases eq_or_ne p' q with rfl | hq
      · rw [System.setProcess_self, Function.update_self, Function.update_self]
        exact hz
      · rw [System.setProcess_of_ne s z hq, Function.update_of_ne hq, Function.update_of_ne hq]
        exact h.process p'
  case cpu => exact h.cpu
  case knows =>
    intro c' p' hp'
    change (s.cpu c').pc.Knows (((s.setProcess q z).setPoint p k).process p').point
    rw [hpoints p']
    split_ifs with hp
    · rw [hp] at hp'
      exact h.knows_of_thread hpc k hp'
    · exact h.knows c' p' hp'
  case init =>
    change (((s.setProcess q z).setPoint p k).process init).made = true
      ∧ (((s.setProcess q z).setPoint p k).process init).parent = none
      ∧ Function.update freer q r init = none
      ∧ (((s.setProcess q z).setPoint p k).process init).Clean
    rcases eq_or_ne init p with rfl | hp
    · rw [hself, Function.update_of_ne hpq]
      exact ⟨h.init.1, h.init.2.1, h.init.2.2.1, h.init.2.2.2.thread, h.init.2.2.2.proc,
        h.init.2.2.2.map⟩
    · rw [hother init hp]
      rcases eq_or_ne init q with rfl | hq
      · rw [System.setProcess_self, Function.update_self]
        exact hinit rfl
      · rw [System.setProcess_of_ne s z hq, Function.update_of_ne hq]
        exact h.init

omit [DecidableEq C] in
/-- A thread goes on in `process_free`, or comes to it. -/
theorem Inv.reap (h : Inv init s loc freer) (hpc : (s.cpu c).pc = .thread p) {z : Process P}
    {stage : Stage} (hforks : (s.process p).point.forks = none)
    (hfrees : ∀ q' stage, (s.process p).point.frees = some (q', stage) → q' = q)
    (hfreer : ∀ p' stage, freer q = some (p', stage) → p' = p) (hpq : p ≠ q)
    (hexited : (s.process p).point ≠ .exited)
    (hpoint : z.point = (s.process q).point) (hz : z.Ok (loc q) (some (p, stage)))
    (hinit : q ≠ init) :
  Inv init ((s.setProcess q z).setPoint p (.freeing q stage)) loc
    (Function.update freer q (some (p, stage)))
  := by
  have hact := h.act hpc hpq (k := .freeing q stage) (z := z) (l := loc q) (r := some (p, stage))
    (v := s.readyQueue)
  rw [Function.update_eq_self] at hact
  apply hact hexited ⟨nofun, nofun⟩ hpoint hz (absurd · hinit) (fun _ => Iff.rfl) h.queue h.nodup
  · intro p' q'
    have hold := h.fork p' q'
    grind [Point.forks]
  · intro p' q' stage'
    have hold := h.free p' q' stage'
    simp only [Function.update_apply]
    grind [Point.frees]

omit [DecidableEq C] in
/-- A thread has freed a child. -/
theorem Inv.reaped (h : Inv init s loc freer) (hpc : (s.cpu c).pc = .thread p) {z : Process P}
    {stage : Stage} (hfrees : (s.process p).point = .freeing q stage) (hpq : p ≠ q)
    (hpoint : z.point = (s.process q).point) (hz : z.Ok (loc q) none) (hinit : q ≠ init) :
  Inv init ((s.setProcess q z).setPoint p .user) loc (Function.update freer q none)
  := by
  have hfreer := (h.free p q stage).mp (by rw [hfrees]; rfl)
  have hact := h.act hpc hpq (k := .user) (z := z) (l := loc q) (r := none) (v := s.readyQueue)
  rw [Function.update_eq_self] at hact
  apply hact (hfrees ▸ nofun) ⟨nofun, nofun⟩ hpoint hz (absurd · hinit) (fun _ => Iff.rfl)
    h.queue h.nodup
  · intro p' q'
    have hold := h.fork p' q'
    grind [Point.forks]
  · intro p' q' stage'
    have hold := h.free p' q' stage'
    simp only [Function.update_apply]
    grind [Point.frees]

omit [DecidableEq C] [DecidableEq P] in
/-- What `syscall_fork` makes. -/
theorem child_ok : (child p).Ok (.forked p : Loc C P) none := by
  apply Process.Lives.ok
  constructor
  case made => rfl
  case loc => exact ⟨nofun, nofun⟩
  case state => exact ⟨nofun, nofun⟩
  case threadState => exact ⟨nofun, nofun⟩
  case point => exact ⟨nofun, nofun⟩
  case forked => exact fun _ _ => rfl
  case clean => exact ⟨rfl, rfl, rfl⟩

omit [DecidableEq C] in
/-- A thread makes a process. -/
theorem Inv.makeChild (h : Inv init s loc freer) (hpc : (s.cpu c).pc = .thread p)
    (hpoint : (s.process p).point = .user) (hq : (s.process q).made = false) :
  Inv init ((s.setProcess q (child p)).setPoint p (.forked q)) (Function.update loc q (.forked p))
    freer
  := by
  have hloc := (h.hand c p).mp (by rw [Cpu.hand, hpc])
  have hunmade : loc q = .unmade := by
    by_contra hl
    rw [((h.process q).made).mpr hl] at hq
    cases hq
  have hpq : p ≠ q := by
    rintro rfl
    rw [hloc] at hunmade
    cases hunmade
  have hinit : q ≠ init := by
    rintro rfl
    rw [h.init.1] at hq
    cases hq
  obtain ⟨hfresh, _, hnone⟩ := (h.process q).unmade hunmade
  have hact := h.act hpc hpq (k := .forked q) (z := child p) (l := .forked p) (r := none)
    (v := s.readyQueue)
  rw [← hnone, Function.update_eq_self] at hact
  apply hact (hpoint ▸ nofun) ⟨nofun, nofun⟩ hfresh.symm (hnone ▸ child_ok) (absurd · hinit)
  · intro c'
    rw [hunmade]
    exact iff_of_false nofun nofun
  · intro q'
    have hold := h.queue q'
    simp only [Function.update_apply]
    grind
  · exact h.nodup
  · intro p' q'
    have hold := h.fork p' q'
    simp only [Function.update_apply]
    grind [Point.forks]
  · intro p' q' stage
    have hold := h.free p' q' stage
    grind [Point.frees]

omit [DecidableEq C] in
/-- A thread inserts the process that it has made. -/
theorem Inv.insertChild (h : Inv init s loc freer) (hpc : (s.cpu c).pc = .thread p)
    (hpoint : (s.process p).point = .forked q) :
  Inv init ((s.schedulerInsert q).setPoint p .user) (Function.update loc q .queued) freer
  := by
  have hloc := (h.hand c p).mp (by rw [Cpu.hand, hpc])
  have hq : loc q = .forked p := (h.fork p q).mp (by rw [hpoint]; rfl)
  have hpq : p ≠ q := by
    rintro rfl
    rw [hloc] at hq
    cases hq
  have hqueued : q ∉ s.readyQueue := by
    rw [h.queue, hq]
    nofun
  have hold := h.process q
  rw [hq] at hold
  have hx : (s.process q).point ≠ .exited := hold.forked p rfl ▸ nofun
  have hlives := hold.lives nofun hx
  have hok : { s.process q with threadState := .ready }.Ok (.queued : Loc C P) (freer q) := by
    rw [hold.freer_none hx]
    apply Process.Lives.ok
    exact hlives.moveTo .queued .ready ⟨nofun, nofun⟩ nofun ⟨nofun, nofun⟩
  have hact := h.act hpc hpq (k := .user) (z := { s.process q with threadState := .ready })
    (l := .queued) (r := freer q) (v := s.readyQueue ++ [q])
  rw [Function.update_eq_self] at hact
  apply hact (hpoint ▸ nofun) ⟨nofun, nofun⟩ rfl hok
  · rintro rfl
    exact ⟨h.init.1, h.init.2.1, h.init.2.2.1, h.init.2.2.2.thread, h.init.2.2.2.proc,
      h.init.2.2.2.map⟩
  · intro c'
    rw [hq]
    exact iff_of_false nofun nofun
  · intro q'
    have hold := h.queue q'
    simp only [Function.update_apply]
    grind
  · exact h.nodup.append (List.nodup_singleton q) (List.disjoint_singleton.mpr hqueued)
  · intro p' q'
    have hold := h.fork p' q'
    simp only [Function.update_apply]
    grind [Point.forks]
  · intro p' q' stage
    have hold := h.free p' q' stage
    grind [Point.frees]

omit [DecidableEq C] [DecidableEq P] in
/-- A processor goes on with the same process current and loaded. -/
theorem Cpu.Ok.goTo {x : Cpu P} (h : x.Ok init) {pc pc' : Pc P} (hpc : x.pc = pc)
    (hold : pc ≠ .start) (hnew : pc' ≠ .start) (hprocess : pc'.process = pc.process)
    (hspace : pc'.space = pc.space) (hlast : ∀ p ∈ pc'.last, x.lastThread = some p) :
  { x with pc := pc' }.Ok init
  := by
  subst hpc
  constructor
  case process => exact h.process.trans hprocess.symm
  case space => exact fun _ => (h.space hold).trans hspace.symm
  case last => exact hlast
  case start => exact fun hcontra => absurd hcontra hnew

omit [DecidableEq P] in
/-- A processor goes on with the same thread in its hand, and the same process current and
loaded. -/
theorem Inv.goTo (h : Inv init s loc freer) {pc pc' : Pc P} (hpc : (s.cpu c).pc = pc)
    (hold : pc ≠ .start) (hnew : pc' ≠ .start) (hprocess : pc'.process = pc.process)
    (hspace : pc'.space = pc.space) (hlast : ∀ p ∈ pc'.last, (s.cpu c).lastThread = some p)
    (hhand : { s.cpu c with pc := pc' }.hand = (s.cpu c).hand)
    (hknows : ∀ p, (s.cpu c).hand = some p → pc'.Knows (s.process p).point) :
  Inv init (s.setPc c pc') loc freer
  := by
  apply h.setCpu
  · exact hhand
  · exact (h.cpu c).goTo hpc hold hnew hprocess hspace hlast
  · intro p hp
    exact hknows p (hhand ▸ hp)

omit [DecidableEq C] in
/-- A processor writes the state of a live thread that it has in its hand. -/
theorem Inv.writeThreadState (h : Inv init s loc freer) (hhand : (s.cpu c).hand = some p)
    (hx : (s.process p).point ≠ .exited) {v : ThreadState} (hfinished : v ≠ .finished)
    (hwaiting : v ≠ .waiting) :
  Inv init (s.setThreadState p v) loc freer
  := by
  have hloc := (h.hand c p).mp hhand
  have hold := h.process p
  have hlives := hold.lives (hloc ▸ nofun) hx
  apply h.setProcess
  · rfl
  · rfl
  · exact fun c' => h.knows c' p
  · rw [hold.freer_none hx]
    exact (hlives.moveTo _ v hlives.loc hlives.forked ⟨hfinished, hwaiting⟩).ok
  · exact h.keep_init ⟨rfl, rfl, rfl, rfl⟩

omit [DecidableEq C] in
/-- A processor writes the state of a live process whose thread it has in its hand. -/
theorem Inv.writeState (h : Inv init s loc freer) (hhand : (s.cpu c).hand = some p)
    (hx : (s.process p).point ≠ .exited) {v : ProcState} (hzombie : v ≠ .zombie)
    (hdone : v ≠ .done) :
  Inv init (s.setState p v) loc freer
  := by
  have hloc := (h.hand c p).mp hhand
  have hold := h.process p
  have hlives := hold.lives (hloc ▸ nofun) hx
  apply h.setProcess
  · rfl
  · rfl
  · exact fun c' => h.knows c' p
  · rw [hold.freer_none hx]
    apply Process.Lives.ok
    exact ⟨hlives.made, hlives.loc, ⟨hzombie, hdone⟩, hlives.threadState, hlives.point,
      hlives.forked, ⟨hlives.clean.thread, hlives.clean.proc, hlives.clean.map⟩⟩
  · exact h.keep_init ⟨rfl, rfl, rfl, rfl⟩

omit [DecidableEq C] [DecidableEq P] in
/-- A live process is alive for `process_alive`. -/
theorem Process.Lives.alive {x : Process P} {l : Loc C P} (h : x.Lives l) : x.alive = true := by
  have hstate := h.state
  rw [Process.alive]
  cases hx : x.state with
  | ready => rfl
  | running => rfl
  | zombie => exact absurd hx hstate.1
  | done => exact absurd hx hstate.2

/-! ### Steps outside of the threads -/

/-- The invariant holds, wherever the threads are. -/
def Consistent (init : P) (s : System C P) : Prop :=
  ∃ loc freer, Inv init s loc freer

/-- At the test of the process of the last thread. -/
theorem Inv.test (h : Inv init s loc freer) (hpc : (s.cpu c).pc = .test p)
    (hstep : goStep s c = some s') :
  Inv init s' loc freer
  := by
  have hhand : (s.cpu c).hand = some p := by rw [Cpu.hand, hpc]
  have hmade : loc p ≠ .unmade := (h.hand c p).mp hhand ▸ nofun
  have hold := h.process p
  rw [goStep, hpc] at hstep
  simp only at hstep
  split_ifs at hstep with halive
  · obtain rfl := Option.some.inj hstep
    refine h.goTo hpc nofun nofun rfl rfl nofun hhand.symm ?_
    intro q hq hexited
    obtain rfl := Option.some.inj (hhand.symm.trans hq)
    have hzombie := (hold.zombie hmade).mpr hexited
    rw [Process.alive, hzombie] at halive
    cases halive
  · obtain rfl := Option.some.inj hstep
    refine h.goTo hpc nofun nofun rfl rfl nofun hhand.symm ?_
    intro q hq
    obtain rfl := Option.some.inj (hhand.symm.trans hq)
    by_contra hx
    exact halive (hold.lives hmade hx).alive

omit [DecidableEq C] [DecidableEq P] in
/-- A thread that a processor has in its hand is not finished. -/
theorem Inv.unfinished (h : Inv init s loc freer) (hhand : (s.cpu c).hand = some p) :
  (s.process p).threadState ≠ .finished
  := by
  have hloc := (h.hand c p).mp hhand
  intro hfinished
  have hdone := ((h.process p).finished (hloc ▸ nofun)).mp hfinished
  rw [hloc] at hdone
  cases hdone

/-- A processor at the top of its loop still has its last thread in its hand. -/
theorem Inv.top (h : Inv init s loc freer) (hpc : (s.cpu c).pc = .top)
    (hstep : goStep s c = some s') :
  Inv init s' loc freer
  := by
  have hhand : (s.cpu c).hand = (s.cpu c).lastThread := by rw [Cpu.hand, hpc]
  rw [goStep, hpc] at hstep
  cases hlast : (s.cpu c).lastThread with
  | none =>
      simp only [hlast] at hstep
      obtain rfl := Option.some.inj hstep
      rw [hlast] at hhand
      refine h.goTo hpc nofun nofun rfl rfl nofun hhand.symm ?_
      rw [hhand]
      nofun
  | some old =>
      simp only [hlast] at hstep
      rw [hlast] at hhand
      rw [if_pos (h.unfinished hhand)] at hstep
      obtain rfl := Option.some.inj hstep
      exact h.goTo hpc nofun nofun rfl rfl nofun hhand.symm fun _ _ => trivial

/-- At `scheduler_insert(old)`. -/
theorem Inv.insert (h : Inv init s loc freer) (hpc : (s.cpu c).pc = .insert p) :
  Consistent init ((s.schedulerInsert p).setPc c .idle)
  := by
  have hhand : (s.cpu c).hand = some p := by rw [Cpu.hand, hpc]
  have hloc := (h.hand c p).mp hhand
  have hknows := h.knows_at hpc hhand
  have hold := h.process p
  have hlives := hold.lives (hloc ▸ nofun) hknows
  have hok : { s.cpu c with pc := .idle }.Ok init :=
    (h.cpu c).goTo hpc nofun nofun rfl rfl nofun
  refine ⟨Function.update loc p .queued, freer, h.release hhand rfl hok rfl ?_ ?_ ?_⟩
  · rw [hold.freer_none hknows]
    apply Process.Lives.ok
    exact hlives.moveTo .queued .ready ⟨nofun, nofun⟩ nofun ⟨nofun, nofun⟩
  · exact h.keep_init ⟨rfl, rfl, rfl, rfl⟩
  · exact Or.inr ⟨rfl, rfl⟩

omit [DecidableEq C] [DecidableEq P] in
/-- A thread that has exited is finished. -/
theorem Process.Ok.finish {x : Process P} {r : Option (P × Stage)} (h : x.Ok (.held c) r)
    (hx : x.point = .exited) :
  { x with threadState := .finished }.Ok (.done : Loc C P) r
  := by
  have hclean := h.clean nofun
  constructor
  case made => exact iff_of_true (h.made.mpr nofun) nofun
  case unmade => nofun
  case zombie => exact fun _ => h.zombie nofun
  case alive => exact fun _ => h.alive nofun
  case finished => exact fun _ => iff_of_true rfl rfl
  case state => nofun
  case done => exact fun _ => hx
  case queued => nofun
  case forked => nofun
  case calm => exact h.calm
  case clean => exact fun hdone => absurd rfl hdone
  case child => exact fun _ _ => ⟨hclean.thread, hclean.proc, hclean.map⟩
  case whole => exact h.whole
  case freed =>
    intro p stage hr
    have hby := h.freed p stage hr
    cases stage with
    | test => exact ⟨hby.1, hby.2.1, hclean.thread, hclean.proc, hclean.map⟩
    | await => exact ⟨hby.1, hby.2.1, hclean.thread, hclean.proc, hclean.map⟩
    | check => exact absurd hby.2.1 nofun
    | thread => exact absurd hby.2.1 nofun
    | next => exact absurd hby.2.1 nofun
    | unlink => exact absurd hby.2.1 nofun
    | map => exact absurd hby.2.1 nofun
    | proc => exact absurd hby.2.1 nofun

/-- Before the last thread is finished. -/
theorem Inv.finish (h : Inv init s loc freer) (hpc : (s.cpu c).pc = .finish p) :
  Consistent init ((s.setThreadState p .finished).setPc c .idle)
  := by
  have hhand : (s.cpu c).hand = some p := by rw [Cpu.hand, hpc]
  have hloc := (h.hand c p).mp hhand
  have hknows := h.knows_at hpc hhand
  have hold := h.process p
  rw [hloc] at hold
  have hok : { s.cpu c with pc := .idle }.Ok init :=
    (h.cpu c).goTo hpc nofun nofun rfl rfl nofun
  refine ⟨Function.update loc p .done, freer, h.release hhand rfl hok rfl ?_ ?_ ?_⟩
  · exact hold.finish hknows
  · exact h.keep_init ⟨rfl, rfl, rfl, rfl⟩
  · exact Or.inl ⟨rfl, rfl⟩

/-- At `scheduler_next()`. -/
theorem Inv.idle (h : Inv init s loc freer) (hpc : (s.cpu c).pc = .idle)
    (hstep : goStep s c = some s') :
  Consistent init s'
  := by
  have hhand : (s.cpu c).hand = none := by rw [Cpu.hand, hpc]
  rw [goStep, hpc] at hstep
  cases hqueue : s.readyQueue with
  | nil =>
      simp only [hqueue] at hstep
      obtain rfl := Option.some.inj hstep
      exact ⟨loc, freer, h⟩
  | cons new rest =>
      simp only [hqueue] at hstep
      obtain rfl := Option.some.inj hstep
      have hloc := (h.queue new).mp (hqueue ▸ List.mem_cons_self)
      have hold := h.process new
      have hx := hold.queued hloc
      have hlives := hold.lives (hloc ▸ nofun) hx
      have hok : { s.cpu c with pc := .check new }.Ok init :=
        (h.cpu c).goTo hpc nofun nofun rfl rfl nofun
      refine ⟨Function.update loc new (.held c), freer, h.take hhand hqueue rfl hok hx ?_⟩
      rw [hold.freer_none hx]
      apply Process.Lives.ok
      exact hlives.moveTo (.held c) _ ⟨nofun, nofun⟩ nofun hlives.threadState

/-- At the test of the process of the new thread. -/
theorem Inv.check (h : Inv init s loc freer) (hpc : (s.cpu c).pc = .check p)
    (hstep : goStep s c = some s') :
  Inv init s' loc freer
  := by
  have hhand : (s.cpu c).hand = some p := by rw [Cpu.hand, hpc]
  have hloc := (h.hand c p).mp hhand
  have hknows := h.knows_at hpc hhand
  have halive := ((h.process p).lives (hloc ▸ nofun) hknows).alive
  rw [goStep, hpc] at hstep
  simp only [halive, if_true] at hstep
  obtain rfl := Option.some.inj hstep
  refine h.goTo hpc nofun nofun rfl rfl nofun hhand.symm ?_
  intro q hq
  obtain rfl := Option.some.inj (hhand.symm.trans hq)
  exact hknows

/-- At `switch_process(new->process)`: no process is current. -/
theorem Inv.enter (h : Inv init s loc freer) (hpc : (s.cpu c).pc = .enter p)
    (hstep : goStep s c = some s') :
  Inv init s' loc freer
  := by
  have hhand : (s.cpu c).hand = some p := by rw [Cpu.hand, hpc]
  have hknows := h.knows_at hpc hhand
  obtain ⟨hprocess, hspace, hlast⟩ := (h.cpu c).at_pc hpc nofun
  have hnone : (s.cpu c).currentProcess = none := hprocess
  have hleave : s.leaveProcess c = s := by rw [System.leaveProcess, hnone]
  rw [goStep, hpc] at hstep
  simp only [hnone, hleave, reduceCtorEq, if_false] at hstep
  obtain rfl := Option.some.inj hstep
  apply (h.writeState hhand hknows (v := .running) nofun nofun).setCpu
  · exact hhand.symm
  · exact ⟨rfl, fun _ => hspace, hlast, nofun⟩
  · intro q hq
    obtain rfl := Option.some.inj hq
    exact (s.setState_point ..).trans_ne hknows

/-- At `switch_process(0)`: the process of the thread is current. -/
theorem Inv.leave (h : Inv init s loc freer) (hpc : (s.cpu c).pc = .leave p)
    (hstep : goStep s c = some s') :
  Inv init s' loc freer
  := by
  have hhand : (s.cpu c).hand = some p := by rw [Cpu.hand, hpc]
  obtain ⟨hcurrent, hspace, hlast⟩ := (h.cpu c).at_pc hpc nofun
  have hprocess : (s.cpu c).currentProcess = some p := hcurrent
  rw [goStep, hpc] at hstep
  obtain rfl := Option.some.inj hstep
  have hleft : Inv init (s.leaveProcess c) loc freer := by
    rw [System.leaveProcess, hprocess]
    dsimp only
    split_ifs with hrunning
    · refine h.writeState hhand ?_ nofun nofun
      intro hexited
      have hmade : loc p ≠ .unmade := (h.hand c p).mp hhand ▸ nofun
      have hzombie := ((h.process p).zombie hmade).mpr hexited
      rw [hzombie] at hrunning
      cases hrunning
    · exact h
  have hsame : (s.leaveProcess c).cpu c = s.cpu c := by
    rw [System.leaveProcess, hprocess]
    dsimp only
    split_ifs
    · rfl
    · rfl
  rw [← hsame]
  apply hleft.setCpu
  · rw [hsame]
    exact hhand.symm
  · rw [hsame]
    exact ⟨rfl, fun _ => hspace, hlast, nofun⟩
  · exact fun _ _ => trivial

/-- A step outside of the threads. -/
theorem inv_go (h : Inv init s loc freer) (hstep : goStep s c = some s') : Consistent init s' := by
  have hok := h.cpu c
  cases hpc : (s.cpu c).pc with
  | start =>
      rw [goStep, hpc] at hstep
      obtain rfl := Option.some.inj hstep
      refine ⟨loc, freer, h.setCpu ?_ ?_ ?_⟩
      · rw [Cpu.hand, Cpu.hand, hpc]
        exact (hok.start hpc).1
      · exact ⟨rfl, fun _ => rfl, nofun, nofun⟩
      · exact fun _ _ => trivial
  | top => exact ⟨loc, freer, h.top hpc hstep⟩
  | test p => exact ⟨loc, freer, h.test hpc hstep⟩
  | ready p =>
      have hhand : (s.cpu c).hand = some p := by rw [Cpu.hand, hpc]
      have hknows := h.knows_at hpc hhand
      rw [goStep, hpc] at hstep
      obtain rfl := Option.some.inj hstep
      have hwritten := h.writeThreadState hhand hknows (v := .ready) nofun nofun
      refine ⟨loc, freer, hwritten.goTo hpc nofun nofun rfl rfl nofun hhand.symm ?_⟩
      intro q hq
      obtain rfl := Option.some.inj (hhand.symm.trans hq)
      exact (s.setThreadState_point ..).trans_ne hknows
  | insert p =>
      rw [goStep, hpc] at hstep
      obtain rfl := Option.some.inj hstep
      exact h.insert hpc
  | finish p =>
      rw [goStep, hpc] at hstep
      obtain rfl := Option.some.inj hstep
      exact h.finish hpc
  | idle => exact h.idle hpc hstep
  | check p => exact ⟨loc, freer, h.check hpc hstep⟩
  | drop p =>
      exact (h.knows_at hpc (by rw [Cpu.hand, hpc])).elim
  | run p =>
      have hhand : (s.cpu c).hand = some p := by rw [Cpu.hand, hpc]
      have hknows := h.knows_at hpc hhand
      rw [goStep, hpc] at hstep
      obtain rfl := Option.some.inj hstep
      have hwritten := h.writeThreadState hhand hknows (v := .running) nofun nofun
      refine ⟨loc, freer, hwritten.setCpu hhand.symm ⟨?_, fun _ => ?_, ?_, nofun⟩ ?_⟩
      · exact (hok.at_pc hpc nofun).1
      · exact (hok.at_pc hpc nofun).2.1
      · exact fun q hq => hq
      · intro q hq
        obtain rfl := Option.some.inj hq
        exact (s.setThreadState_point ..).trans_ne hknows
  | enter p => exact ⟨loc, freer, h.enter hpc hstep⟩
  | load p =>
      have hhand : (s.cpu c).hand = some p := by rw [Cpu.hand, hpc]
      have hknows := h.knows_at hpc hhand
      rw [goStep, hpc] at hstep
      obtain rfl := Option.some.inj hstep
      refine ⟨loc, freer, h.setCpu hhand.symm ⟨?_, fun _ => rfl, ?_, nofun⟩ ?_⟩
      · exact (hok.at_pc hpc nofun).1
      · exact (hok.at_pc hpc nofun).2.2
      · intro q hq
        obtain rfl := Option.some.inj hq
        exact hknows
  | resume p =>
      have hhand : (s.cpu c).hand = some p := by rw [Cpu.hand, hpc]
      rw [goStep, hpc] at hstep
      obtain rfl := Option.some.inj hstep
      refine ⟨loc, freer, h.goTo hpc nofun nofun rfl rfl ?_ hhand.symm fun _ _ => trivial⟩
      exact (hok.at_pc hpc nofun).2.2
  | thread p =>
      rw [goStep, hpc] at hstep
      cases hstep
  | save p =>
      have hhand : (s.cpu c).hand = some p := by rw [Cpu.hand, hpc]
      rw [goStep, hpc] at hstep
      obtain rfl := Option.some.inj hstep
      refine ⟨loc, freer, h.goTo hpc nofun nofun rfl rfl ?_ hhand.symm fun _ _ => trivial⟩
      exact (hok.at_pc hpc nofun).2.2
  | leave p => exact ⟨loc, freer, h.leave hpc hstep⟩
  | unload p =>
      have hhand : (s.cpu c).hand = some p := by rw [Cpu.hand, hpc]
      rw [goStep, hpc] at hstep
      obtain rfl := Option.some.inj hstep
      refine ⟨loc, freer, h.setCpu hhand.symm ⟨?_, fun _ => rfl, ?_, nofun⟩ fun _ _ => trivial⟩
      · exact (hok.at_pc hpc nofun).1
      · exact (hok.at_pc hpc nofun).2.2
  | park p =>
      have hhand : (s.cpu c).hand = some p := by rw [Cpu.hand, hpc]
      rw [goStep, hpc] at hstep
      obtain rfl := Option.some.inj hstep
      refine ⟨loc, freer, h.goTo hpc nofun nofun rfl rfl nofun ?_ fun _ _ => trivial⟩
      rw [hhand]
      exact (hok.at_pc hpc nofun).2.2 p rfl

/-! ### Steps of `process_free` -/

omit [DecidableEq C] [DecidableEq P] in
/-- A thread frees nothing of its own process. -/
theorem Inv.freer_ne (h : Inv init s loc freer) {stage : Stage}
    (hpoint : (s.process p).point = .freeing q stage) :
  p ≠ q ∧ q ≠ init ∧ freer q = some (p, stage)
  := by
  have hfreer := (h.free p q stage).mp (by rw [hpoint]; rfl)
  have hinit : q ≠ init := by
    rintro rfl
    rw [h.init.2.2.1] at hfreer
    cases hfreer
  refine ⟨?_, hinit, hfreer⟩
  rintro rfl
  have hnone := (h.process p).freer_none (by rw [hpoint]; nofun)
  rw [hnone] at hfreer
  cases hfreer

omit [DecidableEq C] in
/-- A thread goes on in `process_free`, where `z` is the child then. -/
theorem Inv.free_step (h : Inv init s loc freer) (hpc : (s.cpu c).pc = .thread p)
    {stage stage' : Stage} (hpoint : (s.process p).point = .freeing q stage) {z : Process P}
    (hz : z.point = (s.process q).point) (hok : z.Ok (loc q) (some (p, stage'))) :
  Consistent init ((s.setProcess q z).setPoint p (.freeing q stage'))
  := by
  obtain ⟨hpq, hinit, hfreer⟩ := h.freer_ne hpoint
  refine ⟨loc, _, h.reap hpc ?_ ?_ ?_ hpq ?_ hz hok hinit⟩
  · rw [hpoint]
    rfl
  · intro q' stage'' hfrees
    rw [hpoint] at hfrees
    cases hfrees
    rfl
  · intro p' stage'' hfreer'
    rw [hfreer] at hfreer'
    cases hfreer'
    rfl
  · rw [hpoint]
    nofun

/-- A step of `process_free`. -/
theorem inv_free (h : Inv init s loc freer) (hpc : (s.cpu c).pc = .thread p) {stage : Stage}
    (hpoint : (s.process p).point = .freeing q stage) :
  Consistent init (freeStep s c p q stage)
  := by
  obtain ⟨hpq, hinit, hfreer⟩ := h.freer_ne hpoint
  have hq := h.process q
  have hby := hq.freed p stage hfreer
  have hself : s.setProcess q (s.process q) = s := by
    rw [System.setProcess, Function.update_eq_self]
  have hmade : loc q ≠ .unmade := by
    intro hl
    rw [(hq.unmade hl).2.2] at hfreer
    cases hfreer
  cases stage with
  | test =>
      rw [freeStep, if_neg (not_not.mpr hby.2.1)]
      have hnext := h.free_step hpc hpoint rfl
        (hq.free hmade ⟨rfl, rfl, rfl, rfl⟩ hq.clean hq.whole (v := .await) hby)
      rwa [hself] at hnext
  | await =>
      rw [freeStep]
      split_ifs with hruns
      · have hhand : (s.cpu c).hand = some p := by rw [Cpu.hand, hpc]
        refine ⟨loc, freer, h.goTo hpc nofun nofun rfl rfl ?_ hhand.symm fun _ _ => trivial⟩
        exact ((h.cpu c).at_pc hpc nofun).2.2
      · have hdone : loc q = .done := by
          apply (hq.finished hmade).mp
          have hwaiting := hq.state hmade
          rw [Process.runs] at hruns
          cases hstate : (s.process q).threadState with
          | waiting => exact absurd hstate hwaiting
          | ready => simp [hstate] at hruns
          | running => simp [hstate] at hruns
          | finished => rfl
        have hnext := h.free_step hpc hpoint rfl
          (hq.free hmade ⟨rfl, rfl, rfl, rfl⟩ hq.clean hq.whole (v := .check)
            ⟨hby.1, hdone, hby.2.2⟩)
        rwa [hself] at hnext
  | check =>
      have hruns : (s.process q).runs = false := by
        rw [Process.runs, (hq.finished hmade).mpr hby.2.1]
        rfl
      rw [freeStep, hruns, if_neg Bool.false_ne_true]
      have hnext := h.free_step hpc hpoint rfl
        (hq.free hmade ⟨rfl, rfl, rfl, rfl⟩ hq.clean hq.whole (v := .thread) hby)
      rwa [hself] at hnext
  | thread =>
      obtain ⟨hparent, hdone, hclean⟩ := hby
      apply h.free_step hpc hpoint
      · rfl
      · apply hq.free hmade
        · exact ⟨rfl, rfl, rfl, rfl⟩
        · exact fun hnot => absurd hdone hnot
        · exact fun hfreed => absurd (hclean.proc.symm.trans hfreed) nofun
        · exact ⟨hparent, hdone, rfl, hclean.proc, hclean.map⟩
  | next =>
      have hnext := h.free_step hpc hpoint rfl
        (hq.free hmade ⟨rfl, rfl, rfl, rfl⟩ hq.clean hq.whole (v := .unlink) hby)
      rwa [hself] at hnext
  | unlink =>
      obtain ⟨_, hdone, hthread, hproc, hmap⟩ := hby
      apply h.free_step hpc hpoint
      · rfl
      · apply hq.free hmade
        · exact ⟨rfl, rfl, rfl, rfl⟩
        · exact fun hnot => absurd hdone hnot
        · exact hq.whole
        · exact ⟨rfl, hdone, hthread, hproc, hmap⟩
  | map =>
      obtain ⟨hparent, hdone, hthread, hproc, _⟩ := hby
      apply h.free_step hpc hpoint
      · rfl
      · apply hq.free hmade
        · exact ⟨rfl, rfl, rfl, rfl⟩
        · exact fun hnot => absurd hdone hnot
        · exact fun hfreed => absurd (hproc.symm.trans hfreed) nofun
        · exact ⟨hparent, hdone, hthread, hproc, rfl⟩
  | proc =>
      obtain ⟨hparent, hdone, hthread, _, hmap⟩ := hby
      have hhand : (s.cpu c).hand = some p := by rw [Cpu.hand, hpc]
      have hfreed : { s.process q with procFreed := true }.Ok (loc q) none := by
        apply hq.keep hmade
        · exact ⟨rfl, rfl, rfl, rfl⟩
        · exact fun hnot => absurd hdone hnot
        · exact fun hnone => absurd hparent hnone
        · exact fun _ => ⟨hthread, hmap⟩
        · nofun
      have hnext := h.reaped hpc hpoint hpq (by rfl) hfreed hinit
      refine ⟨loc, _, hnext.goTo hpc nofun nofun rfl rfl ?_ hhand.symm fun _ _ => trivial⟩
      exact ((h.cpu c).at_pc hpc nofun).2.2

/-! ### Steps of the threads -/

omit [DecidableEq P] in
/-- A thread calls `schedule()`. -/
theorem Inv.yield (h : Inv init s loc freer) (hpc : (s.cpu c).pc = .thread p) :
  Consistent init (s.setPc c (.save p))
  := by
  have hhand : (s.cpu c).hand = some p := by rw [Cpu.hand, hpc]
  refine ⟨loc, freer, h.goTo hpc nofun nofun rfl rfl ?_ hhand.symm fun _ _ => trivial⟩
  exact ((h.cpu c).at_pc hpc nofun).2.2

omit [DecidableEq C] in
/-- A thread goes on, and frees no other child than before. -/
theorem Inv.goOn (h : Inv init s loc freer) (hpc : (s.cpu c).pc = .thread p) {k : Point P}
    (hforks : k.forks = (s.process p).point.forks) (hfrees : k.frees = (s.process p).point.frees)
    (hexited : (s.process p).point ≠ .exited) (hk : k ≠ .exited) (hcalm : k ≠ .panic) :
  Consistent init (s.setPoint p k)
  := by
  have hhand : (s.cpu c).hand = some p := by rw [Cpu.hand, hpc]
  have hloc := (h.hand c p).mp hhand
  have hold := h.process p
  rw [hloc] at hold
  refine ⟨loc, freer, h.setProcess hforks hfrees ?_ ?_ ?_⟩
  · exact fun c' => h.knows_of_thread hpc k
  · rw [hloc]
    exact hold.setPoint hexited hk hcalm
  · exact h.keep_init ⟨rfl, rfl, rfl, rfl⟩

omit [DecidableEq C] in
/-- The end of `process_exit`. -/
theorem Inv.exit (h : Inv init s loc freer) (hpc : (s.cpu c).pc = .thread p)
    (hpoint : (s.process p).point = .exiting) :
  Consistent init ((s.setState p .zombie).setPoint p .exited)
  := by
  have hhand : (s.cpu c).hand = some p := by rw [Cpu.hand, hpc]
  have hloc := (h.hand c p).mp hhand
  have hold := h.process p
  rw [hloc] at hold
  have hx : (s.process p).point ≠ .exited := hpoint ▸ nofun
  have hlives := hold.lives nofun hx
  have hnone := hold.freer_none hx
  have hwritten : (s.setState p .zombie).setPoint p .exited
      = s.setProcess p { s.process p with state := .zombie, point := .exited } := by
    simp [System.setState, System.setPoint, System.setProcess]
  rw [hwritten]
  refine ⟨loc, freer, h.setProcess ?_ ?_ ?_ ?_ ?_⟩
  · rw [hpoint]
    rfl
  · rw [hpoint]
    rfl
  · exact fun c' => h.knows_of_thread hpc .exited
  · rw [hloc, hnone]
    constructor
    case made => exact iff_of_true hlives.made nofun
    case unmade => nofun
    case zombie => exact fun _ => iff_of_true rfl rfl
    case alive => nofun
    case finished => exact fun _ => iff_of_false hlives.threadState.1 nofun
    case state => exact fun _ => hlives.threadState.2
    case done => nofun
    case queued => nofun
    case forked => nofun
    case calm => nofun
    case clean => exact fun _ => ⟨hlives.clean.thread, hlives.clean.proc, hlives.clean.map⟩
    case child => exact fun _ _ => ⟨hlives.clean.thread, hlives.clean.proc, hlives.clean.map⟩
    case whole => exact hold.whole
    case freed => nofun
  · exact h.keep_init ⟨rfl, rfl, rfl, rfl⟩

omit [DecidableEq C] [DecidableEq P] in
/-- The process that frees a child is its parent: where that frees nothing, no one does. -/
theorem Inv.freer_none_of_parent (h : Inv init s loc freer)
    (hfrees : (s.process p).point.frees = none) (hparent : (s.process q).parent = some p) :
  freer q = none
  := by
  rcases hr : freer q with _ | ⟨p', stage⟩
  · rfl
  · obtain rfl := (h.process q).freer_of_parent hparent hr
    have hsome := (h.free p' q stage).mpr hr
    rw [hfrees] at hsome
    cases hsome

omit [DecidableEq C] in
/-- The loop of `process_exit` comes to a child. -/
theorem Inv.adopt (h : Inv init s loc freer) (hpoint : (s.process p).point = .exiting)
    (hparent : (s.process q).parent = some p) :
  Consistent init (s.setProcess q { s.process q with parent := some init })
  := by
  have hq := h.process q
  have hnone := h.freer_none_of_parent (hpoint ▸ rfl) hparent
  have hclean := hq.child (hparent ▸ nofun) hnone
  refine ⟨loc, freer, h.setProcess rfl rfl (fun c => h.knows c q) ?_ ?_⟩
  · rw [hnone]
    apply hq.keep (hq.made_of_parent hparent)
    · exact ⟨rfl, rfl, rfl, rfl⟩
    · exact fun _ => ⟨hclean.thread, hclean.proc, hclean.map⟩
    · exact fun _ _ => ⟨hclean.thread, hclean.proc, hclean.map⟩
    · exact hq.whole
    · nofun
  · rintro rfl
    rw [h.init.2.1] at hparent
    cases hparent

omit [DecidableEq C] in
/-- The loop of `syscall_wait` comes to a child that has exited. -/
theorem Inv.look (h : Inv init s loc freer) (hpc : (s.cpu c).pc = .thread p)
    (hpoint : (s.process p).point = .waiting) (hparent : (s.process q).parent = some p)
    (hzombie : (s.process q).state = .zombie) :
  Consistent init (s.setPoint p (.freeing q .test))
  := by
  have hq := h.process q
  have hnone := h.freer_none_of_parent (hpoint ▸ rfl) hparent
  have hmade := hq.made_of_parent hparent
  have hself : s.setProcess q (s.process q) = s := by
    rw [System.setProcess, Function.update_eq_self]
  have hpq : p ≠ q := by
    rintro rfl
    have hexited := ((h.process p).zombie hmade).mp hzombie
    rw [hpoint] at hexited
    cases hexited
  have hnext := h.reap hpc (z := s.process q) (by rw [hpoint]; rfl) (by rw [hpoint]; nofun)
    (by rw [hnone]; nofun) hpq (by rw [hpoint]; nofun) rfl
    (hq.free hmade ⟨rfl, rfl, rfl, rfl⟩ hq.clean hq.whole (v := .test)
      ⟨hparent, hzombie, hq.child (hparent ▸ nofun) hnone⟩) (by
        rintro rfl
        rw [h.init.2.1] at hparent
        cases hparent)
  rw [hself] at hnext
  exact ⟨loc, _, hnext⟩

/-- A step of a thread. -/
theorem inv_thread (h : Inv init s loc freer) (hpc : (s.cpu c).pc = .thread p) {k : Point P}
    {r : Request P} (hpoint : (s.process p).point = k)
    (hstep : threadStep init s c p k r = some s') :
  Consistent init s'
  := by
  cases k with
  | user =>
      cases r with
      | use =>
          obtain rfl := Option.some.inj hstep
          exact ⟨loc, freer, h⟩
      | yield =>
          obtain rfl := Option.some.inj hstep
          exact h.yield hpc
      | fork q =>
          rw [threadStep] at hstep
          split_ifs at hstep with hmade
          obtain rfl := Option.some.inj hstep
          exact ⟨_, freer, h.makeChild hpc hpoint (Bool.not_eq_true _ ▸ hmade)⟩
      | exit =>
          obtain rfl := Option.some.inj hstep
          exact h.goOn hpc (hpoint ▸ rfl) (hpoint ▸ rfl) (hpoint ▸ nofun) nofun nofun
      | wait =>
          obtain rfl := Option.some.inj hstep
          exact h.goOn hpc (hpoint ▸ rfl) (hpoint ▸ rfl) (hpoint ▸ nofun) nofun nofun
      | look q => cases hstep
      | adopt q => cases hstep
      | go => cases hstep
  | forked q =>
      cases r with
      | go =>
          obtain rfl := Option.some.inj hstep
          exact ⟨_, freer, h.insertChild hpc hpoint⟩
      | _ => cases hstep
  | exiting =>
      cases r with
      | adopt q =>
          rw [threadStep] at hstep
          split_ifs at hstep with hparent
          obtain rfl := Option.some.inj hstep
          exact h.adopt hpoint hparent
      | go =>
          obtain rfl := Option.some.inj hstep
          exact h.exit hpc hpoint
      | _ => cases hstep
  | exited =>
      cases r with
      | go =>
          obtain rfl := Option.some.inj hstep
          exact h.yield hpc
      | _ => cases hstep
  | waiting =>
      cases r with
      | look q =>
          rw [threadStep] at hstep
          split_ifs at hstep with hparent hzombie
          · obtain rfl := Option.some.inj hstep
            exact h.look hpc hpoint hparent hzombie
          · obtain rfl := Option.some.inj hstep
            exact ⟨loc, freer, h⟩
      | yield =>
          obtain rfl := Option.some.inj hstep
          exact h.yield hpc
      | _ => cases hstep
  | freeing q stage =>
      cases r with
      | go =>
          obtain rfl := Option.some.inj hstep
          exact inv_free h hpc hpoint
      | _ => cases hstep
  | panic => exact absurd hpoint (h.process p).calm

/-- Every step of a processor keeps the invariant. -/
theorem inv_step (h : Inv init s loc freer) {a : Act C P} (hstep : step init s a = some s') :
  Consistent init s'
  := by
  obtain ⟨c, r⟩ := a
  rw [step] at hstep
  split at hstep
  · next p r hpc => exact inv_thread h hpc rfl hstep
  · exact inv_go h hstep
  · cases hstep

end Steps

end Reap
