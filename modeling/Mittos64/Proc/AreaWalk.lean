import Mittos64.Proc.AreaList

/-!
# Areas in any order

An area that is added below others is linked to the wrong one of its neighbours, so that the walk
along the list of the map misses areas.  The walk still ends and passes no area twice, whatever the
order of the addresses is, and the link back of its first area does not lead into it.
-/

open DList

namespace Procmm

open Mem

/-- The links of the head and of the areas in `Z` lead to areas in `Z` only, all walks end, and the
link back of the first area does not lead into the walk from there. -/
structure Joined (head : Link Nat) (link : Nat → Link Nat) (Z : Nat → Prop) : Prop where
  first : ∀ x ∈ head.next, Z x
  last : ∀ x ∈ head.prev, Z x
  prev : ∀ z, Z z → ∀ x ∈ (link z).prev, Z x
  next : ∀ z, Z z → ∀ x ∈ (link z).next, Z x
  ends : ∀ z, Z z → ∃ xs, Chain link (some z) xs
  opens : ∀ xs, Chain link head.next xs → ∀ x ∈ head.next, ∀ p ∈ (link x).prev, p ∉ xs

/-- The areas that a walk over `xs` passes before it comes to one that meets the new area do not lie
above the new area. -/
def Clear (area : Nat → Area) (xs : List Nat) (start stop : Nat) : Prop :=
  ∀ ys o zs, xs = ys ++ o :: zs → Meets area start stop o → (∀ y ∈ ys, ¬ Meets area start stop y) →
    ∀ y ∈ ys, (area y).start ≤ stop

/-- What the walk of `procmm_map` over the areas `xs` does to the links, for the new area `a`. -/
structure Passed (a : Nat) (xs : List Nat) (head : Link Nat) (link : Nat → Link Nat)
    (head' : Link Nat) (link' : Nat → Link Nat) : Prop where
  first : head'.next = head.next ∨ head'.next = some a
  last : head'.prev = head.prev
  next : ∀ z ≠ a, (link' z).next = (link z).next
  prev : ∀ z ≠ a, (link' z).prev = (link z).prev ∨ (link' z).prev = some a
  kept : head'.next ≠ some a → ∀ x ∈ head.next, (link' x).prev = (link x).prev
  other : ∀ z ≠ a, z ∉ xs → link' z = link z
  newPrev : (link' a).prev = none
  newNext : (link' a).next = (link a).next ∨ ∃ x ∈ xs, (link' a).next = (link x).prev

section Passed

variable {area : Nat → Area} {a o : Nat} {head head' head'' : Link Nat}
  {link link' link'' : Nat → Link Nat} {xs ys : List Nat} {o? : Option Nat}

theorem Passed.nil (hnew : (link a).prev = none) :
  Passed a [] head link head link
  := ⟨Or.inl rfl, rfl, fun _ _ => rfl, fun _ _ => Or.inl rfl, fun _ _ _ => rfl, fun _ _ _ => rfl,
    hnew, Or.inl rfl⟩

/-- The walk passes an area. -/
theorem passed_singleton (head : Link Nat) (hnew : (link a).prev = none) (hne : o ≠ a) (c : Prop)
    [Decidable c] :
  Passed a [o] head link (if c then listInsertBefore head link a o else (head, link)).1
    (if c then listInsertBefore head link a o else (head, link)).2
  := by
  split_ifs with hc
  · rw [listInsertBefore_new hnew hne]
    have hold : ∀ z ≠ a, z ≠ o → Function.update (Function.update link a ⟨none, (link o).prev⟩) o
        ⟨some a, (link o).next⟩ z = link z := by
      intro z hz hzo
      rw [Function.update_of_ne hzo, Function.update_of_ne hz]
    constructor
    · dsimp only
      split_ifs
      · exact Or.inr rfl
      · exact Or.inl rfl
    · dsimp only
      split_ifs
      · rfl
      · rfl
    · intro z hz
      dsimp only
      by_cases hzo : z = o
      · rw [hzo, Function.update_self]
      · rw [hold z hz hzo]
    · intro z hz
      dsimp only
      by_cases hzo : z = o
      · rw [hzo, Function.update_self]
        exact Or.inr rfl
      · rw [hold z hz hzo]
        exact Or.inl rfl
    · intro hnot x hx
      dsimp only at hnot ⊢
      split_ifs at hnot with hfirst
      · exact absurd rfl hnot
      · rw [hold x]
        · rintro rfl
          exact hnot hx
        · rintro rfl
          exact hfirst hx
    · intro z hz hzo
      exact hold z hz (fun heq => hzo (List.mem_singleton.mpr heq))
    · dsimp only
      rw [Function.update_of_ne hne.symm, Function.update_self]
    · right
      refine ⟨o, List.mem_singleton.mpr rfl, ?_⟩
      dsimp only
      rw [Function.update_of_ne hne.symm, Function.update_self]
  · exact ⟨Or.inl rfl, rfl, fun _ _ => rfl, fun _ _ => Or.inl rfl, fun _ _ _ => rfl,
      fun _ _ _ => rfl, hnew, Or.inl rfl⟩

/-- The walk goes on over other areas. -/
theorem Passed.append (h : Passed a xs head link head' link')
    (h' : Passed a ys head' link' head'' link'') (hdisj : ∀ y ∈ ys, y ≠ a ∧ y ∉ xs) :
  Passed a (xs ++ ys) head link head'' link''
  where
  first := by
    obtain heq | heq := h'.first
    · rw [heq]
      exact h.first
    · exact Or.inr heq
  last := h'.last.trans h.last
  next z hz := (h'.next z hz).trans (h.next z hz)
  prev := by
    intro z hz
    obtain heq | heq := h'.prev z hz
    · rw [heq]
      exact h.prev z hz
    · exact Or.inr heq
  kept := by
    intro hnot x hx
    have hsame : head''.next = head'.next := h'.first.resolve_right hnot
    rw [hsame] at hnot
    have hfirst : head'.next = head.next := h.first.resolve_right hnot
    rw [h'.kept (by rwa [hsame]) x (by rwa [hfirst]), h.kept hnot x hx]
  other := by
    intro z hz hnot
    rw [List.mem_append, not_or] at hnot
    rw [h'.other z hz hnot.2, h.other z hz hnot.1]
  newPrev := h'.newPrev
  newNext := by
    obtain heq | ⟨x, hx, heq⟩ := h'.newNext
    · rw [heq]
      obtain heq' | ⟨x, hx, heq'⟩ := h.newNext
      · exact Or.inl heq'
      · exact Or.inr ⟨x, List.mem_append_left ys hx, heq'⟩
    · obtain ⟨hne, hnot⟩ := hdisj x hx
      rw [h.other x hne hnot] at heq
      exact Or.inr ⟨x, List.mem_append_right xs hx, heq⟩

/-- The walk passes all areas when none of them meets the new one. -/
theorem placeArea_apart {fuel : Nat} (hchain : Chain link o? xs) (ha : a ∉ xs)
    (hnew : (link a).prev = none)
    (hapart : ∀ o ∈ xs, ¬ Meets area (area a).start (area a).stop o) (hfuel : xs.length < fuel) :
  ∃ head' link', placeArea area a fuel head link o? = some (true, head', link')
    ∧ Passed a xs head link head' link'
  := by
  induction fuel generalizing xs head link o? with
  | zero => exact absurd hfuel (Nat.not_lt_zero _)
  | succ fuel ih =>
      cases xs with
      | nil =>
          obtain rfl : o? = none := hchain
          exact ⟨head, link, rfl, .nil hnew⟩
      | cons o xs =>
          obtain ⟨rfl, hrest⟩ := hchain
          have hnodup : (o :: xs).Nodup := Chain.nodup (o := some o) ⟨rfl, hrest⟩
          rw [List.nodup_cons] at hnodup
          rw [List.mem_cons, not_or] at ha
          have hpass := passed_singleton head hnew (Ne.symm ha.1)
            ((area o).start > (area a).stop)
          obtain ⟨l, hl⟩ : ∃ l, l = if (area o).start > (area a).stop then
              listInsertBefore head link a o else (head, link) := ⟨_, rfl⟩
          rw [← hl] at hpass
          have hne : ∀ x ∈ xs, x ≠ a := by
            rintro x hx rfl
            exact ha.2 hx
          have hrest' : Chain l.2 (l.2 o).next xs := by
            rw [hpass.next o (Ne.symm ha.1)]
            apply hrest.congr
            intro x hx
            apply hpass.next x (hne x hx)
          obtain ⟨head', link', hplace, hpassed⟩ := ih hrest' ha.2 hpass.newPrev
            (fun x hx => hapart x (List.mem_cons_of_mem o hx)) (Nat.lt_of_succ_lt_succ hfuel)
          refine ⟨head', link', ?_, hpass.append hpassed ?_⟩
          · have hcond := not_not.mp (hapart o List.mem_cons_self)
            rw [Procmm.placeArea, if_pos hcond, ← hl]
            exact hplace
          · intro x hx
            refine ⟨hne x hx, ?_⟩
            rintro hmem
            rw [List.mem_singleton.mp hmem] at hx
            exact hnodup.1 hx

/-- The walk stops at the first area that meets the new one.  It has linked nothing when the areas
before do not lie above. -/
theorem placeArea_stop {fuel : Nat} (hchain : Chain link o? (ys ++ o :: xs))
    (hbefore : ∀ y ∈ ys, ¬ Meets area (area a).start (area a).stop y
      ∧ (area y).start ≤ (area a).stop)
    (hmeets : Meets area (area a).start (area a).stop o) (hfuel : ys.length < fuel) :
  placeArea area a fuel head link o? = some (false, head, link)
  := by
  induction fuel generalizing ys o? with
  | zero => exact absurd hfuel (Nat.not_lt_zero _)
  | succ fuel ih =>
      cases ys with
      | nil =>
          obtain ⟨rfl, -⟩ := hchain
          rw [Procmm.placeArea, if_neg hmeets]
      | cons y ys =>
          obtain ⟨rfl, hrest⟩ := hchain
          obtain ⟨hapart, hle⟩ := hbefore y List.mem_cons_self
          rw [Procmm.placeArea, if_pos (not_not.mp hapart), if_neg (Nat.not_lt.mpr hle)]
          apply ih hrest (fun x hx => hbefore x (List.mem_cons_of_mem y hx))
            (Nat.lt_of_succ_lt_succ hfuel)

end Passed

section Joined

variable {area : Nat → Area} {a : Nat} {head head' : Link Nat} {link link' : Nat → Link Nat}
  {xs : List Nat} {Z : Nat → Prop}

/-- The walk from the head stays among the areas. -/
theorem Joined.mem (h : Joined head link Z) (hchain : Chain link head.next xs) {x : Nat}
    (hx : x ∈ xs) :
  Z x
  := hchain.closed h.first h.next x hx

/-- A new area without links. -/
theorem Joined.new (h : Joined head link Z) (ha : ¬ Z a) :
  Joined head (Function.update link a nil) (fun x => Z x ∨ x = a)
  := by
  have hold : ∀ {z}, Z z → Function.update link a nil z = link z := by
    intro z hz
    apply Function.update_of_ne
    rintro rfl
    exact ha hz
  have hsame : ∀ {o xs}, Chain link o xs → (∀ x ∈ o, Z x) →
      Chain (Function.update link a nil) o xs := by
    intro o xs hchain ho
    apply hchain.congr
    intro x hx
    rw [hold (hchain.closed ho h.next x hx)]
  constructor
  · exact fun x hx => Or.inl (h.first x hx)
  · exact fun x hx => Or.inl (h.last x hx)
  · rintro z (hz | rfl) x hx
    · rw [hold hz] at hx
      exact Or.inl (h.prev z hz x hx)
    · rw [Function.update_self] at hx
      cases hx
  · rintro z (hz | rfl) x hx
    · rw [hold hz] at hx
      exact Or.inl (h.next z hz x hx)
    · rw [Function.update_self] at hx
      cases hx
  · rintro z (hz | rfl)
    · obtain ⟨xs, hchain⟩ := h.ends z hz
      refine ⟨xs, hsame hchain ?_⟩
      rintro x hx
      obtain rfl := Option.some.inj hx
      exact hz
    · refine ⟨[z], rfl, ?_⟩
      rw [Function.update_self]
      rfl
  · intro xs hchain x hx p hp
    obtain ⟨ys, hys⟩ := h.ends x (h.first x hx)
    have hstart : Chain link head.next ys := by
      rw [hx]
      exact hys
    rw [hold (h.first x hx)] at hp
    rw [hchain.unique (hsame hstart h.first)]
    exact h.opens ys hstart x hx p hp

/-- The links that the walk of `procmm_map` leaves. -/
theorem Joined.passed (h : Joined head link Z) (ha : ¬ Z a)
    (hpassed : Passed a xs head (Function.update link a nil) head' link') (hxs : ∀ x ∈ xs, Z x) :
  Joined head' link' (fun x => Z x ∨ x = a)
    ∧ ∀ x ∈ head'.next, x ≠ a → (link' x).prev ≠ some a
  := by
  have hne : ∀ {z}, Z z → z ≠ a := by
    rintro z hz rfl
    exact ha hz
  have hold : ∀ {z}, Z z → Function.update link a nil z = link z :=
    fun hz => Function.update_of_ne (hne hz) _ _
  have hnext : ∀ {z}, Z z → (link' z).next = (link z).next := by
    intro z hz
    rw [hpassed.next z (hne hz), hold hz]
  have hsame : ∀ {o ys}, Chain link o ys → (∀ x ∈ o, Z x) → Chain link' o ys := by
    intro o ys hchain ho
    apply hchain.congr
    intro x hx
    apply hnext (hchain.closed ho h.next x hx)
  have hnew : ∀ x ∈ (link' a).next, Z x := by
    intro x hx
    obtain heq | ⟨y, hy, heq⟩ := hpassed.newNext
    · rw [heq, Function.update_self] at hx
      cases hx
    · rw [heq, hold (hxs y hy)] at hx
      exact h.prev y (hxs y hy) x hx
  have hends : ∀ z, Z z → ∃ ys, Chain link' (some z) ys := by
    intro z hz
    obtain ⟨ys, hchain⟩ := h.ends z hz
    refine ⟨ys, hsame hchain ?_⟩
    rintro x hx
    obtain rfl := Option.some.inj hx
    exact hz
  have hkept : ∀ x ∈ head'.next, x ≠ a →
      head'.next = head.next ∧ Z x ∧ (link' x).prev = (link x).prev := by
    intro x hx hxa
    have hnot : head'.next ≠ some a := by
      rw [hx]
      rintro heq
      exact hxa (Option.some.inj heq)
    have hfirst := hpassed.first.resolve_right hnot
    have hx' := hx
    rw [hfirst] at hx'
    have hZ := h.first x hx'
    refine ⟨hfirst, hZ, ?_⟩
    rw [hpassed.kept hnot x hx', hold hZ]
  constructor
  · constructor
    · intro x hx
      by_cases hxa : x = a
      · exact Or.inr hxa
      · exact Or.inl (hkept x hx hxa).2.1
    · rw [hpassed.last]
      exact fun x hx => Or.inl (h.last x hx)
    · rintro z (hz | rfl) x hx
      · obtain heq | heq := hpassed.prev z (hne hz)
        · rw [heq, hold hz] at hx
          exact Or.inl (h.prev z hz x hx)
        · rw [heq] at hx
          exact Or.inr (Option.some.inj hx).symm
      · rw [hpassed.newPrev] at hx
        cases hx
    · rintro z (hz | rfl) x hx
      · rw [hnext hz] at hx
        exact Or.inl (h.next z hz x hx)
      · exact Or.inl (hnew x hx)
    · rintro z (hz | rfl)
      · exact hends z hz
      · cases hlast : (link' z).next with
        | none =>
            refine ⟨[z], rfl, ?_⟩
            rw [hlast]
            rfl
        | some x =>
            obtain ⟨ys, hchain⟩ := hends x (hnew x hlast)
            refine ⟨z :: ys, rfl, ?_⟩
            rw [hlast]
            exact hchain
    · intro ys hchain x hx p hp
      by_cases hxa : x = a
      · rw [hxa, hpassed.newPrev] at hp
        cases hp
      · obtain ⟨hfirst, hZ, hprev⟩ := hkept x hx hxa
        obtain ⟨zs, hzs⟩ := h.ends x hZ
        have hstart : Chain link head.next zs := by
          rw [← hfirst, hx]
          exact hzs
        rw [hfirst] at hchain hx
        rw [hprev] at hp
        rw [hchain.unique (hsame hstart h.first)]
        exact h.opens zs hstart x hx p hp
  · intro x hx hxa heq
    obtain ⟨-, hZ, hprev⟩ := hkept x hx hxa
    rw [hprev] at heq
    exact ha (h.prev x hZ a heq)

/-- The new area is appended when it has no next one. -/
theorem Joined.append (h : Joined head link (fun x => Z x ∨ x = a)) (ha : ¬ Z a)
    (hlast : ∀ x ∈ head.prev, Z x) (hnext : (link a).next = none)
    (hfirst : ∀ x ∈ head.next, x ≠ a → (link x).prev ≠ some a) :
  Joined (listAppend head link a).1 (listAppend head link a).2 (fun x => Z x ∨ x = a)
    ∧ ∀ y, ¬ Z y → y ≠ a → (listAppend head link a).2 y = link y
  := by
  have hne : ∀ {z}, Z z → z ≠ a := by
    rintro z hz rfl
    exact ha hz
  have hlinks := listAppend_links head link a
  have hends := listAppend_ends head link a
  obtain ⟨l, hl⟩ : ∃ l, l = listAppend head link a := ⟨_, rfl⟩
  rw [← hl] at hlinks hends ⊢
  have hself : l.2 a = ⟨head.prev, none⟩ := by
    rw [hlinks, setNext_of_ne, Function.update_self]
    intro heq
    exact hne (hlast a heq) rfl
  have hprev : ∀ z ≠ a, (l.2 z).prev = (link z).prev := by
    intro z hz
    rw [hlinks, setNext_prev, Function.update_of_ne hz]
  have hnexts : ∀ z ≠ a, (l.2 z).next = (link z).next ∨ (l.2 z).next = some a := by
    intro z hz
    by_cases heq : head.prev = some z
    · rw [hlinks, heq, setNext_self]
      exact Or.inr rfl
    · rw [hlinks, setNext_of_ne _ _ heq, Function.update_of_ne hz]
      exact Or.inl rfl
  have hend : (l.2 a).next = none := by
    rw [hself]
  have hredirect : ∀ {o xs}, Chain link o xs → ∃ ys, Chain l.2 o ys ∧ ys ⊆ a :: xs := by
    intro o xs hchain
    apply hchain.redirect hend
    intro x _
    by_cases hxa : x = a
    · left
      rw [hxa, hend, hnext]
    · exact hnexts x hxa
  constructor
  · constructor
    · obtain heq | heq := hends.2
      · rw [heq]
        intro x hx
        exact Or.inr (Option.some.inj hx).symm
      · rw [heq]
        exact h.first
    · rw [hends.1]
      intro x hx
      exact Or.inr (Option.some.inj hx).symm
    · intro z hz x hx
      by_cases hza : z = a
      · rw [hza, hself] at hx
        exact Or.inl (hlast x hx)
      · rw [hprev z hza] at hx
        exact h.prev z hz x hx
    · intro z hz x hx
      by_cases hza : z = a
      · rw [hza, hend] at hx
        cases hx
      · obtain heq | heq := hnexts z hza
        · rw [heq] at hx
          exact h.next z hz x hx
        · rw [heq] at hx
          exact Or.inr (Option.some.inj hx).symm
    · intro z hz
      obtain ⟨xs, hchain⟩ := h.ends z hz
      obtain ⟨ys, hys, -⟩ := hredirect hchain
      exact ⟨ys, hys⟩
    · intro ys hchain x hx p hp
      by_cases hxa : x = a
      · -- the walk from the new area passes it only
        have halone : Chain l.2 l.1.next [a] := by
          rw [hx, hxa]
          refine ⟨rfl, ?_⟩
          rw [hend]
          rfl
        rw [hxa, hself] at hp
        rw [hchain.unique halone, List.mem_singleton]
        exact hne (hlast p hp)
      · have hsame : l.1.next = head.next := by
          apply hends.2.resolve_left
          rw [hx]
          intro heq
          exact hxa (Option.some.inj heq)
        rw [hsame] at hchain hx
        obtain ⟨xs, hxs⟩ := h.ends x (h.first x hx)
        have hstart : Chain link head.next xs := by
          rw [hx]
          exact hxs
        obtain ⟨zs, hzs, hsub⟩ := hredirect hstart
        rw [hprev x hxa] at hp
        rw [hchain.unique hzs]
        intro hmem
        obtain rfl | hmem := List.mem_cons.mp (hsub hmem)
        · exact hfirst x hx hxa hp
        · exact h.opens xs hstart x hx p hp hmem
  · intro y hy hya
    rw [hlinks, setNext_of_ne, Function.update_of_ne hya]
    intro heq
    exact hy (hlast y heq)

/-- The part of `procmm_map` that puts the new area in the list, when it links nothing before it
comes to an area that meets the new one. -/
theorem Joined.insertArea {fuel : Nat} (h : Joined head link Z) (ha : ¬ Z a)
    (hchain : Chain link head.next xs) (hclear : Clear area xs (area a).start (area a).stop)
    (hfuel : xs.length < fuel) :
  ∃ ok head' link', insertArea area a fuel head link = some (ok, head', link')
    ∧ Joined head' link' (fun x => Z x ∨ x = a) ∧ (∀ y, ¬ Z y → y ≠ a → link' y = link y)
    ∧ (ok = false → head' = head ∧ ∀ y ≠ a, link' y = link y)
    ∧ (ok = true → ∀ x ∈ xs, ¬ Meets area (area a).start (area a).stop x)
  := by
  have hmem : ∀ x ∈ xs, Z x := fun x hx => h.mem hchain hx
  have hnot : a ∉ xs := fun hmem' => ha (hmem a hmem')
  have hchain' : Chain (Function.update link a nil) head.next xs := by
    apply hchain.congr
    intro x hx
    rw [Function.update_of_ne]
    rintro rfl
    exact hnot hx
  by_cases hmeets : ∃ o ∈ xs, Meets area (area a).start (area a).stop o
  · obtain ⟨o, ho, hmeets⟩ := hmeets
    obtain ⟨o, ys, zs, hsplit, hmeets, hbefore⟩ := exists_first ho hmeets
    rw [hsplit] at hchain' hfuel
    have hle := hclear ys o zs hsplit hmeets hbefore
    have hlen : ys.length < fuel := by
      rw [List.length_append] at hfuel
      omega
    have hsame : ∀ y ≠ a, Function.update link a nil y = link y :=
      fun y hya => Function.update_of_ne hya nil link
    refine ⟨false, head, Function.update link a nil, ?_, h.new ha, fun y _ => hsame y,
      fun _ => ⟨rfl, hsame⟩, fun hok => Bool.noConfusion hok⟩
    rw [Procmm.insertArea]
    simp only [placeArea_stop hchain' (fun y hy => ⟨hbefore y hy, hle y hy⟩) hmeets hlen]
  · have hapart : ∀ o ∈ xs, ¬ Meets area (area a).start (area a).stop o :=
      fun o ho hmeets' => hmeets ⟨o, ho, hmeets'⟩
    obtain ⟨head', link', hplace, hpassed⟩ : ∃ head' link',
        placeArea area a fuel head (Function.update link a nil) head.next = some (true, head', link')
          ∧ Passed a xs head (Function.update link a nil) head' link' :=
      placeArea_apart hchain' hnot (by rw [Function.update_self]; rfl) hapart hfuel
    obtain ⟨hjoined, hfirst⟩ := h.passed ha hpassed hmem
    have hother : ∀ y, ¬ Z y → y ≠ a → link' y = link y := by
      intro y hy hya
      rw [hpassed.other y hya (fun hyx => hy (hmem y hyx)), Function.update_of_ne hya]
    cases hnext : (link' a).next with
    | some x =>
        refine ⟨true, head', link', ?_, hjoined, hother, fun hok => Bool.noConfusion hok,
          fun _ => hapart⟩
        rw [Procmm.insertArea, hplace]
        simp only [listEmpty, hnext, Option.isNone_some, Bool.false_eq_true, if_false]
    | none =>
        have hlast : ∀ x ∈ head'.prev, Z x := by
          rw [hpassed.last]
          exact h.last
        obtain ⟨happend, hsame⟩ := hjoined.append ha hlast hnext hfirst
        refine ⟨true, (listAppend head' link' a).1, (listAppend head' link' a).2, ?_, happend, ?_,
          fun hok => Bool.noConfusion hok, fun _ => hapart⟩
        · rw [Procmm.insertArea, hplace]
          simp only [listEmpty, hnext, Option.isNone_none, if_true]
        · intro y hy hya
          rw [hsame y hy hya, hother y hy hya]

end Joined

end Procmm
