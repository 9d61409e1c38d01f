import Mittos64.Proc.AreaWalk
import Mittos64.Proc.Fork
import Mittos64.Proc.Frames
import Mittos64.Proc.NullFrame

/-!
# The calls on all maps

What a call on one of the maps of the kernel does to the others: it takes frames off the free stack,
maps them at pages of its own address space, and changes the areas and the list of its own map only.
`Steady` is what the calls keep for the machine, `Arranged` what they keep for the areas, whatever the
order of the calls is, as long as the areas stay in the user half.
-/

open DList

namespace Procmm

open Mem

/-- The kernel with another area. -/
@[simps]
def Kernel.setArea (k : Kernel) (a : Nat) (area : Area) : Kernel :=
  { k with area := Function.update k.area a area }

/-! ### The machine -/

/-- The machine is sound for the address spaces of all live maps, and the kernel half reaches the
frames of their pages. -/
structure Steady (b : Nat) (fs : List Nat) (k : Kernel) : Prop where
  ready : Ready b k.Root fs k
  low : LowPages (words k.machine.mem) k.Root

/-- The kernel `k'` is the kernel `k` after the pages `page` of the address space `r` have been mapped
to frames of `used`. -/
structure MapsPages (b r : Nat) (page : Nat → Prop) (used : List Nat) (k k' : Kernel) : Prop where
  root : k'.Root = k.Root
  kept : Kept b k.Root (words k.machine.mem) (words k'.machine.mem)
  mapped : ∀ {c}, page c → ∃ f ∈ used,
    lookup (words k'.machine.mem) r c = addFlags (frame f) userFlags
  other : ∀ {q c}, k.Root q → p4Offset c ≠ 511 → ¬ (q = r ∧ page c) →
    lookup (words k'.machine.mem) q c = lookup (words k.machine.mem) q c

section Machine

variable {b r m start stop : Nat} {page : Nat → Prop} {used fs fs' : List Nat} {a : Option Nat}
  {grow : Nat → Nat} {k k' k'' : Kernel}

/-- Mapping pages to free frames. -/
theorem Steady.mapsPages (h : Steady b (used ++ fs') k) (hready : Ready b k.Root fs' k')
    (hmaps : MapsPages b r page used k k') :
  Steady b fs' k'
  := by
  constructor
  · rw [hmaps.root]
    exact hready
  · rw [hmaps.root]
    rintro f ⟨q, c, hq, hc, hne, rfl⟩
    by_cases hpage : q = r ∧ page c
    · obtain ⟨f, hf, hlookup⟩ := hmaps.mapped hpage.2
      rw [hpage.1, hlookup, (userFlags_entry f).2]
      exact (h.ready.sound.unused f (List.mem_append_left fs' hf)).1
    · rw [hmaps.other hq hc hpage] at hne ⊢
      exact h.low ⟨q, c, hq, hc, hne, rfl⟩

/-- The pages after a call of `procmm_map`. -/
theorem Steady.paged (h : Steady b fs k) (hready : Ready b k.Root fs' k')
    (hkeeps : Keeps b used k k') (hpaged : Paged b r start stop used a k k') :
  MapsPages b r (fun c => a ≠ none ∧ Stepped start stop c) used k k'
  where
  root := hkeeps.root
  kept := hkeeps.grows.kept
  mapped hc := hpaged.page hc.1 hc.2
  other := by
    intro q c hq hc hnot
    apply hpaged.other (Or.inr hq) (not_stepped_heap h.ready.heap.1 hready.heap.2.2 hc)
    rintro ⟨ha, heq, hstep⟩
    exact hnot ⟨heq, ha, hstep⟩

/-- The frames of an address space stay its frames when its tables and its pages stay. -/
theorem userFrame_mono {T T' : Words} {live live' : Nat → Prop} {q f : Nat}
    (hT : KernelTables b T live) (hT' : KernelTables b T' live') (hq : live q) (hq' : live' q)
    (hkept : Kept b live T T')
    (hsame : ∀ c, p4Offset c ≠ 511 → lookup T q c ≠ 0 → lookup T' q c = lookup T q c)
    (hf : UserFrame T q f) :
  UserFrame T' q f
  := by
  apply (userFrame_iff hT' hq').mpr
  obtain ⟨p, hp, hhead, hwalk⟩ | ⟨c, hc, hne, heq⟩ := (userFrame_iff hT hq).mp hf
  · exact Or.inl ⟨p, hp, hhead, Kept.walk hkept (Or.inr hq) hp hwalk⟩
  · right
    have hlookup := hsame c hc hne
    rw [← hlookup] at hne heq
    exact ⟨c, hc, hne, heq⟩

/-- The frames of an address space stay its frames when none of its pages is mapped anew. -/
theorem MapsPages.userFrame (h : MapsPages b r page used k k') (hsteady : Steady b fs k)
    (hsteady' : Steady b fs' k') {q f : Nat} (hq : k.Root q)
    (hfresh : q = r → ∀ c, page c → lookup (words k.machine.mem) r c = 0)
    (hf : UserFrame (words k.machine.mem) q f) :
  UserFrame (words k'.machine.mem) q f
  := by
  have hT' := hsteady'.ready.sound.half.toKernelTables
  rw [h.root] at hT'
  apply userFrame_mono hsteady.ready.sound.half.toKernelTables hT' hq hq h.kept _ hf
  intro c hc hne
  apply h.other hq hc
  rintro ⟨rfl, hpage⟩
  exact hne (hfresh rfl c hpage)

/-- The pages of the heap are no pages of an address space. -/
theorem Steady.kcalloc {n : Nat} (h : Steady b fs k)
    (hcall : Procmm.kcalloc (frame b) n k = some k') :
  ∃ used fs', fs = used ++ fs' ∧ Steady b fs' k' ∧ MapsPages b b (fun _ => False) used k k'
    ∧ Keeps b used k k'
  := by
  have hroom : k.heapBrk + pageSize * n ≤ 2 ^ 64 := by
    rw [Procmm.kcalloc] at hcall
    cases hgrow : growHeap (frame b) n k.machine k.heapBrk with
    | none =>
        rw [hgrow] at hcall
        cases hcall
    | some r =>
        obtain ⟨s, brk⟩ := r
        apply growHeap_room hgrow h.ready.heap.2.2
  obtain ⟨k₁, used, fs', hfs, -, hcall', hready, hkeeps, -, hlookup⟩ | ⟨-, hnone⟩ :=
    h.ready.kcalloc hroom
  · obtain rfl := Option.some.inj (hcall.symm.trans hcall')
    have hmaps : MapsPages b b (fun _ => False) used k k' := by
      refine ⟨hkeeps.root, hkeeps.grows.kept, False.elim, ?_⟩
      intro q c hq hc _
      exact hlookup q c (Or.inr hq) (not_stepped_heap h.ready.heap.1 hready.heap.2.2 hc)
    refine ⟨used, fs', hfs, ?_, hmaps, hkeeps⟩
    rw [hfs] at h
    exact h.mapsPages hready hmaps
  · rw [hcall] at hnone
    cases hnone

/-- A call of `procmm_map`. -/
theorem Steady.procmmMap {flags : Nat} (h : Steady b fs k) (hlive : k.live m = true)
    (hP4 : (k.map m).P4 = frame r) (hstop : stop ≤ userspaceTop)
    (hcall : Procmm.procmmMap (frame b) grow k m start stop flags = some (a, k')) :
  ∃ used fs', fs = used ++ fs' ∧ Steady b fs' k' ∧ Keeps b used k k'
    ∧ MapsPages b r (fun c => a ≠ none ∧ Stepped start stop c) used k k'
  := by
  obtain ⟨used, fs', hfs, hready, hkeeps, hpaged⟩ := h.ready.procmmMap_call hlive hP4 hstop hcall
  have hmaps := h.paged hready hkeeps hpaged
  refine ⟨used, fs', hfs, ?_, hkeeps, hmaps⟩
  rw [hfs] at h
  exact h.mapsPages hready hmaps

/-- Mapping the pages of an area that is there, which gets other bounds. -/
theorem Steady.mapPages {fuel : Nat} {s : Machine} (o : Nat) (area : Area) (h : Steady b fs k)
    (hlive : k.live m = true) (hP4 : (k.map m).P4 = frame r) (hstop : stop ≤ userspaceTop)
    (hfuel : turns start stop < fuel)
    (hpages : mapPages (frame b) fuel k.machine (k.map m).P4 start stop = some s) :
  ∃ used fs', fs = used ++ fs' ∧ Steady b fs' ((k.setArea o area).withMachine s)
    ∧ Keeps b used k ((k.setArea o area).withMachine s)
    ∧ MapsPages b r (Stepped start stop) used k ((k.setArea o area).withMachine s)
  := by
  have hroot : k.Root r := ⟨m, hlive, hP4⟩
  rw [hP4] at hpages
  obtain ⟨s', used, fs', hfs, -, hpages', hsound, hgrows, hmapping⟩ | ⟨-, hnone⟩ :=
    h.ready.sound.mapPages hroot hstop hfuel
  · obtain rfl := Option.some.inj (hpages.symm.trans hpages')
    have hkeeps : Keeps b used k ((k.setArea o area).withMachine s) :=
      ⟨hgrows, rfl, rfl, fun _ => rfl, Nat.le_refl _⟩
    have hmaps : MapsPages b r (Stepped start stop) used k ((k.setArea o area).withMachine s) :=
      ⟨hkeeps.root, hgrows.kept, hmapping.page, fun hq _ hnot => hmapping.other (Or.inr hq) hnot⟩
    refine ⟨used, fs', hfs, ?_, hkeeps, hmaps⟩
    have hready : Ready b k.Root fs' ((k.setArea o area).withMachine s) :=
      h.ready.of_sound rfl rfl (fun _ => rfl) h.ready.heap hsound
    rw [hfs] at h
    exact h.mapsPages hready hmaps
  · rw [hpages] at hnone
    cases hnone

/-- One page is a loop of one turn. -/
theorem mapPages_one {s s' : Machine} {P4 p : Nat} (hp : p + pageSize < 2 ^ 64)
    (hpage : mapPage (frame b) userFlags s P4 p = some s') :
  mapPages (frame b) 2 s P4 p (p + 1) = some s'
  := by
  rw [Procmm.mapPages, if_pos (Nat.lt_succ_self p), hpage]
  dsimp only
  rw [incptr_of_lt hp, Procmm.mapPages, if_neg]
  rw [pageSize]
  omega

/-- Writing to the pages of an address space. -/
theorem Steady.touched {mem : Memory} (h : Steady b fs k) (hroot : k.Root r)
    (ht : Touches (words k.machine.mem) r k.machine.mem mem) :
  Steady b fs (k.withMachine (k.machine.withMem mem))
    ∧ MapsPages b r (fun _ => False) [] k (k.withMachine (k.machine.withMem mem))
  := by
  obtain ⟨hready, hspends, hlookup⟩ := h.ready.touched hroot ht
  have hmaps : MapsPages b r (fun _ => False) [] k (k.withMachine (k.machine.withMem mem)) :=
    ⟨rfl, hspends.kept, False.elim, fun hq _ _ => hlookup _ _ (Or.inr hq)⟩
  have hnone : Steady b ([] ++ fs) k := h
  exact ⟨hnone.mapsPages hready hmaps, hmaps⟩

end Machine

/-! ### The areas -/

/-- The area belongs to the map. -/
def Kernel.Of (k : Kernel) (m a : Nat) : Prop :=
  a < k.areas ∧ (k.area a).map = m

/-- The area ends where it starts or later, in the user half. -/
def Area.User (area : Area) : Prop :=
  area.start ≤ area.stop ∧ area.stop ≤ userspaceTop

/-- The areas of the live maps lie in the user half, and the links of every live map lead to its own
areas. -/
structure Arranged (k : Kernel) : Prop where
  joined : ∀ {m}, k.live m = true → Joined (k.map m).areas k.link (k.Of m)
  maps : ∀ a < k.areas, (k.area a).map < k.maps
  user : ∀ {m a}, k.live m = true → k.Of m a → (k.area a).User
  stack : ∀ {m a}, k.live m = true → (k.map m).stack = some a → k.Of m a

/-- The kernel `k'` has the areas of the kernel `k` and a new one of the map `m`; the links of the
areas of other maps are as before. -/
structure AddsArea (m : Nat) (area : Area) (k k' : Kernel) : Prop where
  area : k'.area = (k.addArea area).area
  areas : k'.areas = k.areas + 1
  live : k'.live = k.live
  maps : k'.maps = k.maps
  map : ∀ m' ≠ m, k'.map m' = k.map m'
  pointers : ∀ m', (k'.map m').pointers = (k.map m').pointers
  link : ∀ a < k.areas, (k.area a).map ≠ m → k'.link a = k.link a

section Areas

variable {b r m start stop : Nat} {fs fs' xs : List Nat} {a : Option Nat} {grow : Nat → Nat}
  {k k' k'' : Kernel}

/-- A map is as before when its list, and the links of its areas, are. -/
theorem Joined.congr {head : Link Nat} {link link' : Nat → Link Nat} {Z : Nat → Prop}
    (h : Joined head link Z) (hlink : ∀ z, Z z → link' z = link z) :
  Joined head link' Z
  := by
  have hsame : ∀ {o xs}, Chain link o xs → (∀ x ∈ o, Z x) → Chain link' o xs := by
    intro o xs hchain ho
    apply hchain.congr
    intro x hx
    rw [hlink x (hchain.closed ho h.next x hx)]
  constructor
  · exact h.first
  · exact h.last
  · intro z hz
    rw [hlink z hz]
    exact h.prev z hz
  · intro z hz
    rw [hlink z hz]
    exact h.next z hz
  · intro z hz
    obtain ⟨xs, hchain⟩ := h.ends z hz
    refine ⟨xs, hsame hchain ?_⟩
    rintro x hx
    obtain rfl := Option.some.inj hx
    exact hz
  · intro xs hchain x hx p hp
    have hZ := h.first x hx
    obtain ⟨ys, hys⟩ := h.ends x hZ
    have hstart : Chain link head.next ys := by
      rw [hx]
      exact hys
    rw [hlink x hZ] at hp
    rw [hchain.unique (hsame hstart h.first)]
    exact h.opens ys hstart x hx p hp

/-- The walk along the list of a live map. -/
theorem Arranged.exists_listed (h : Arranged k) (hlive : k.live m = true) :
  ∃ xs, Listed k m xs
  := by
  have hj := h.joined hlive
  obtain ⟨xs, hchain⟩ : ∃ xs, Chain k.link (k.map m).areas.next xs := by
    cases hfirst : (k.map m).areas.next with
    | none => exact ⟨[], rfl⟩
    | some x => exact hj.ends x (hj.first x hfirst)
  have hmem : ∀ x ∈ xs, k.Of m x := fun x hx => hj.mem hchain hx
  refine ⟨xs, hchain, ?_, fun x hx => (hmem x hx).1, fun x hx => (hmem x hx).2⟩
  intro x hx p hp
  have hfirst : (k.map m).areas.next = some x := hchain.head.trans hx
  exact ⟨hj.opens xs hchain x hfirst p hp, (hj.prev x (hj.first x hfirst) p hp).2⟩

/-- The areas of the list lie in the user half. -/
theorem Arranged.top (h : Arranged k) (hlive : k.live m = true) (hlist : Listed k m xs) :
  ∀ x ∈ xs, (k.area x).stop ≤ userspaceTop
  := fun x hx => (h.user hlive ⟨hlist.lt x hx, hlist.map x hx⟩).2

/-- What a call of `procmm_map` that returns has done to the list. -/
theorem procmmMap_inserts {bootP4 flags : Nat}
    (h : procmmMap bootP4 grow k m start stop flags = some (a, k')) :
  ∃ ok head link, insertArea (k.addArea ⟨start, stop, flags, m⟩).area k.areas
      (2 * (k.areas + 1) + 1) (k.map m).areas k.link = some (ok, head, link)
    ∧ Inserts k m ⟨start, stop, flags, m⟩ head link k' ∧ k'.live = k.live ∧ k'.maps = k.maps
    ∧ a = if ok then some k.areas else none
  := by
  obtain ⟨k₁, head, link, hcalloc, hcase⟩ := procmmMap_cases h
  obtain ⟨harea, hlink, hmap, hlive, hareas, hmaps⟩ := kcalloc_fields hcalloc
  have hadd : (k₁.addArea ⟨start, stop, flags, m⟩).area
      = (k.addArea ⟨start, stop, flags, m⟩).area := by
    funext o
    rw [Kernel.addArea_area, Kernel.addArea_area, harea, hareas]
  have hnew : (k₁.addArea ⟨start, stop, flags, m⟩).areas = k.areas + 1 := by
    rw [Kernel.addArea_areas, hareas]
  rw [hadd, hareas, hmap, hlink] at hcase
  obtain ⟨hinsert, ha, rfl⟩ | ⟨s, hinsert, -, ha, rfl⟩ := hcase
  · refine ⟨false, head, link, hinsert, ⟨hadd, rfl, ?_, hnew⟩, hlive, hmaps, ha⟩
    change Function.update k₁.map m { k₁.map m with areas := head } = _
    rw [hmap]
  · refine ⟨true, head, link, hinsert, ⟨hadd, rfl, ?_, hnew⟩, hlive, hmaps, ha⟩
    change Function.update k₁.map m { k₁.map m with areas := head } = _
    rw [hmap]

/-- The areas after one has been added. -/
theorem AddsArea.of_iff {area : Area} (h : AddsArea m area k k') (harea : area.map = m) (m' o : Nat) :
  k'.Of m' o ↔ k.Of m' o ∨ (m' = m ∧ o = k.areas)
  := by
  rw [Kernel.Of, Kernel.Of, h.areas, h.area]
  constructor
  · rintro ⟨hlt, hmap⟩
    obtain hlt | rfl := Nat.lt_succ_iff_lt_or_eq.mp hlt
    · left
      rw [addArea_old hlt] at hmap
      exact ⟨hlt, hmap⟩
    · right
      rw [addArea_new, harea] at hmap
      exact ⟨hmap.symm, rfl⟩
  · rintro (⟨hlt, hmap⟩ | ⟨rfl, rfl⟩)
    · rw [addArea_old hlt]
      exact ⟨Nat.lt_succ_of_lt hlt, hmap⟩
    · rw [addArea_new]
      exact ⟨Nat.lt_succ_self _, harea⟩

/-- A call of `procmm_map`, when it links nothing before it comes to an area that meets the new one:
the links stay among the areas `Z`, and the new one if it is not refused. -/
theorem Joined.procmmMap {bootP4 flags : Nat} {Z : Nat → Prop}
    (h : Joined (k.map m).areas k.link Z) (hZ : ∀ z, Z z → k.Of m z) (hlist : Listed k m xs)
    (hclear : Clear k.area xs start stop)
    (hcall : procmmMap bootP4 grow k m start stop flags = some (a, k')) :
  AddsArea m ⟨start, stop, flags, m⟩ k k'
    ∧ Joined (k'.map m).areas k'.link (fun z => Z z ∨ z = k.areas)
    ∧ (a = none → Joined (k'.map m).areas k'.link Z)
    ∧ (a ≠ none → ∀ x ∈ xs, ¬ Meets k.area start stop x)
  := by
  obtain ⟨ok, head, link, hinsert, hins, hlive', hmaps', rfl⟩ := procmmMap_inserts hcall
  have hpointers := fun m' => (procmmMap_pointers hcall m').1
  have hnot : ¬ Z k.areas := fun hz => Nat.lt_irrefl _ (hZ k.areas hz).1
  have hold : ∀ x ∈ xs, (k.addArea ⟨start, stop, flags, m⟩).area x = k.area x :=
    fun x hx => addArea_old (hlist.lt x hx)
  have hclear' : Clear (k.addArea ⟨start, stop, flags, m⟩).area xs
      ((k.addArea ⟨start, stop, flags, m⟩).area k.areas).start
      ((k.addArea ⟨start, stop, flags, m⟩).area k.areas).stop := by
    rw [addArea_new]
    intro ys o zs hsplit hmeets hbefore y hy
    have ho : o ∈ xs := by
      rw [hsplit]
      simp
    have hys : ∀ y ∈ ys, y ∈ xs := by
      intro y hy
      rw [hsplit]
      exact List.mem_append_left _ hy
    rw [Meets, hold o ho] at hmeets
    rw [hold y (hys y hy)]
    apply hclear ys o zs hsplit hmeets _ y hy
    intro z hz
    have hz' := hbefore z hz
    rwa [Meets, hold z (hys z hz)] at hz'
  have hlen : xs.length < 2 * (k.areas + 1) + 1 := by
    have hle := hlist.length_le
    omega
  obtain ⟨ok', head', link', hinsert', hjoined, hother, hrefused, hapart⟩ :=
    h.insertArea hnot hlist.chain hclear' hlen
  rw [hinsert] at hinsert'
  obtain ⟨rfl, rfl, rfl⟩ : ok = ok' ∧ head = head' ∧ link = link' := by
    simpa using hinsert'
  have hhead : (k'.map m).areas = head := by
    rw [hins.map, Function.update_self]
  rw [hhead, hins.link]
  refine ⟨?_, hjoined, ?_, ?_⟩
  · refine ⟨hins.area, hins.areas, hlive', hmaps', ?_, hpointers, ?_⟩
    · intro m' hm'
      rw [hins.map, Function.update_of_ne hm']
    · intro o ho hmap
      rw [hins.link]
      exact hother o (fun hz => hmap (hZ o hz).2) (Nat.ne_of_lt ho)
  · intro ha
    have hok : ok = false := by
      cases ok with
      | false => rfl
      | true => cases ha
    obtain ⟨rfl, hsame⟩ := hrefused hok
    apply h.congr
    rintro z hz
    apply hsame
    rintro rfl
    exact hnot hz
  · intro ha x hx hmeets
    have hok : ok = true := by
      cases ok with
      | false => exact absurd rfl ha
      | true => rfl
    apply hapart hok x hx
    rw [addArea_new, Meets, hold x hx]
    exact hmeets

/-- A call of `procmm_map` for an area in the user half. -/
theorem Arranged.procmmMap {bootP4 flags : Nat} (h : Arranged k) (hlive : k.live m = true)
    (hm : m < k.maps) (huser : (⟨start, stop, flags, m⟩ : Area).User)
    (hclear : ∀ xs, Listed k m xs → Clear k.area xs start stop)
    (hcall : procmmMap bootP4 grow k m start stop flags = some (a, k')) :
  Arranged k' ∧ AddsArea m ⟨start, stop, flags, m⟩ k k'
  := by
  obtain ⟨xs, hlist⟩ := h.exists_listed hlive
  obtain ⟨hadds, hjoined, -⟩ :=
    (h.joined hlive).procmmMap (fun _ hz => hz) hlist (hclear xs hlist) hcall
  refine ⟨?_, hadds⟩
  have hof := fun m' o => hadds.of_iff rfl m' o
  constructor
  · intro m' hm'
    rw [hadds.live] at hm'
    by_cases hmm : m' = m
    · subst hmm
      have hset : k'.Of m' = fun x => k.Of m' x ∨ x = k.areas := by
        funext o
        apply propext
        rw [hof]
        simp
      rw [hset]
      exact hjoined
    · have hset : k'.Of m' = k.Of m' := by
        funext o
        apply propext
        rw [hof]
        simp [hmm]
      rw [hset, hadds.map m' hmm]
      apply (h.joined hm').congr
      intro z hz
      apply hadds.link z hz.1
      rw [hz.2]
      exact hmm
  · intro o ho
    rw [hadds.areas] at ho
    rw [hadds.maps, hadds.area]
    obtain ho | rfl := Nat.lt_succ_iff_lt_or_eq.mp ho
    · rw [addArea_old ho]
      exact h.maps o ho
    · rw [addArea_new]
      exact hm
  · intro m' o hm' ho
    rw [hadds.live] at hm'
    rw [hadds.area]
    obtain ho | ⟨-, rfl⟩ := (hof m' o).mp ho
    · rw [addArea_old ho.1]
      exact h.user hm' ho
    · rw [addArea_new]
      exact huser
  · intro m' o hm' hstack
    rw [hadds.live] at hm'
    have hsame : (k'.map m').stack = (k.map m').stack := congrArg Prod.snd (hadds.pointers m')
    rw [hsame] at hstack
    exact (hof m' o).mpr (Or.inl (h.stack hm' hstack))

/-- An area gets other bounds in the user half. -/
theorem Arranged.setArea {o : Nat} (area : Area) {s : Machine} (h : Arranged k)
    (hmap : area.map = (k.area o).map) (huser : area.User) :
  Arranged ((k.setArea o area).withMachine s)
  := by
  obtain ⟨k', hk'⟩ : ∃ k', k' = (k.setArea o area).withMachine s := ⟨_, rfl⟩
  rw [← hk']
  have hfields : k'.area = Function.update k.area o area ∧ k'.link = k.link ∧ k'.map = k.map
      ∧ k'.live = k.live ∧ k'.areas = k.areas ∧ k'.maps = k.maps := by
    rw [hk']
    exact ⟨rfl, rfl, rfl, rfl, rfl, rfl⟩
  obtain ⟨harea, hlink, hmaps, hlive, hareas, hcount⟩ := hfields
  have hsame : ∀ x, (k'.area x).map = (k.area x).map := by
    intro x
    rw [harea]
    by_cases hx : x = o
    · rw [hx, Function.update_self, hmap]
    · rw [Function.update_of_ne hx]
  have hof : ∀ m, k'.Of m = k.Of m := by
    intro m
    funext x
    rw [Kernel.Of, Kernel.Of, hareas, hsame]
  constructor
  · intro m hm
    rw [hlive] at hm
    rw [hof, hlink, hmaps]
    exact h.joined hm
  · intro x hx
    rw [hareas] at hx
    rw [hsame, hcount]
    exact h.maps x hx
  · intro m x hm hx
    rw [hlive] at hm
    rw [hof] at hx
    rw [harea]
    by_cases hxo : x = o
    · rw [hxo, Function.update_self]
      exact huser
    · rw [Function.update_of_ne hxo]
      exact h.user hm hx
  · intro m x hm hstack
    rw [hlive] at hm
    rw [hmaps] at hstack
    rw [hof]
    exact h.stack hm hstack

/-- Another machine does not change the areas. -/
theorem Arranged.withMachine (h : Arranged k) (s : Machine) :
  Arranged (k.withMachine s)
  := ⟨h.joined, h.maps, h.user, h.stack⟩

/-- A new map without areas. -/
theorem NewMap.arranged {f : Nat} (hnew : NewMap b k f k') (h : Arranged k) :
  Arranged k'
  := by
  have hof : ∀ m, k'.Of m = k.Of m := by
    intro m
    funext x
    rw [Kernel.Of, Kernel.Of, hnew.areas, hnew.area]
  have hold : ∀ {m}, k'.live m = true → m ≠ k.maps → k.live m = true := by
    intro m hm hne
    rwa [hnew.live, Function.update_of_ne hne] at hm
  have hnone : ∀ x, ¬ k.Of k.maps x := by
    rintro x ⟨hlt, hmap⟩
    exact Nat.lt_irrefl _ (hmap ▸ h.maps x hlt)
  constructor
  · intro m hm
    rw [hof, hnew.link]
    by_cases hne : m = k.maps
    · rw [hne, hnew.map_new]
      refine ⟨?_, ?_, ?_, ?_, ?_, ?_⟩
      · intro x hx
        cases hx
      · intro x hx
        cases hx
      · exact fun z hz => absurd hz (hnone z)
      · exact fun z hz => absurd hz (hnone z)
      · exact fun z hz => absurd hz (hnone z)
      · intro xs _ x hx
        cases hx
    · rw [hnew.map_old m hne]
      exact h.joined (hold hm hne)
  · intro x hx
    rw [hnew.areas] at hx
    rw [hnew.area, hnew.maps]
    exact Nat.lt_succ_of_lt (h.maps x hx)
  · intro m x hm hx
    rw [hof] at hx
    rw [hnew.area]
    by_cases hne : m = k.maps
    · rw [hne] at hx
      exact absurd hx (hnone x)
    · exact h.user (hold hm hne) hx
  · intro m x hm hstack
    rw [hof]
    by_cases hne : m = k.maps
    · rw [hne, hnew.map_new] at hstack
      cases hstack
    · rw [hnew.map_old m hne] at hstack
      exact h.stack (hold hm hne) hstack

/-- A map is taken down. -/
theorem FreedMap.arranged (hfreed : FreedMap b m r k k') (h : Arranged k) :
  Arranged k'
  := by
  have hof : ∀ m', k'.Of m' = k.Of m' := by
    intro m'
    funext x
    rw [Kernel.Of, Kernel.Of, hfreed.areas, hfreed.area]
  have hne : ∀ {m'}, k'.live m' = true → m' ≠ m := by
    rintro m' hm' rfl
    rw [hfreed.live, Function.update_self] at hm'
    cases hm'
  have hold : ∀ {m'}, k'.live m' = true → k.live m' = true := by
    intro m' hm'
    have hm := hne hm'
    rwa [hfreed.live, Function.update_of_ne hm] at hm'
  constructor
  · intro m' hm'
    rw [hof, hfreed.map m' (hne hm')]
    apply (h.joined (hold hm')).congr
    intro z hz
    apply hfreed.link
    rw [hz.2]
    exact hne hm'
  · intro x hx
    rw [hfreed.areas] at hx
    rw [hfreed.area, hfreed.maps]
    exact h.maps x hx
  · intro m' x hm' hx
    rw [hof] at hx
    rw [hfreed.area]
    exact h.user (hold hm') hx
  · intro m' x hm' hstack
    rw [hfreed.map m' (hne hm')] at hstack
    rw [hof]
    exact h.stack (hold hm') hstack

end Areas

end Procmm
