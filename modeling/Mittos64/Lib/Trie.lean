import Mathlib.Data.List.Induction
import Mathlib.Data.Option.Basic

/-!
# Tries in memory

A memory of nodes gives every node and index an entry, and an entry may point to a child
node.  `walk` follows a path of indices from a root.  A forest is a set of paths from some
roots, its domain, on which a node determines the path that leads to it; two roots may share
the nodes below some paths.  Changing one entry of a node of a forest changes only the walks
through that entry (`Forest.walk_update`): linking a new node adds the walks that end in it,
and unlinking a node without children removes those.
-/

universe u v w

namespace Trie

variable {α : Type u} {ι : Type v} {ε : Type w} (child : ε → Option α)

/-- The node at the end of the path `p` from the node `r`. -/
def walk (T : α → ι → ε) : α → List ι → Option α
  | r, [] => some r
  | r, i :: p => (child (T r i)).bind fun t => walk T t p

variable {child} {T T' : α → ι → ε}

@[simp]
theorem walk_nil (r : α) :
  walk child T r [] = some r
  := rfl

@[simp]
theorem walk_cons (r : α) (i : ι) (p : List ι) :
  walk child T r (i :: p) = (child (T r i)).bind fun t => walk child T t p
  := rfl

theorem walk_append (r : α) (p q : List ι) :
  walk child T r (p ++ q) = (walk child T r p).bind fun t => walk child T t q
  := by
  induction p generalizing r with
  | nil => rfl
  | cons i p ih =>
      rw [List.cons_append, walk_cons, walk_cons, Option.bind_assoc]
      simp only [ih]

theorem walk_concat (r : α) (p : List ι) (i : ι) :
  walk child T r (p ++ [i]) = (walk child T r p).bind fun t => child (T t i)
  := by
  rw [walk_append]
  simp

/-- A walk depends on the entries it passes only. -/
theorem walk_congr {r : α} {p : List ι}
    (h : ∀ q i s t, p = q ++ i :: s → walk child T r q = some t → T' t i = T t i) :
  walk child T' r p = walk child T r p
  := by
  induction p using List.reverseRecOn with
  | nil => rfl
  | append_singleton p i ih =>
      have hp : walk child T' r p = walk child T r p := by
        apply ih
        intro q j s t hq ht
        apply h q j (s ++ [i]) t _ ht
        rw [hq]
        simp
      rw [walk_concat, walk_concat, hp]
      cases ht : walk child T r p with
      | none => rfl
      | some t =>
          simp only [Option.bind_some]
          rw [h p i [] t rfl ht]

/-! ### Forests -/

variable (child) in
/-- On the domain `Dom` a node determines its path; roots share nodes below the paths
`Shared` only. -/
structure Forest (T : α → ι → ε) (Dom : α → List ι → Prop) (Shared : List ι → Prop) : Prop where
  closed : ∀ {r p i}, Dom r (p ++ [i]) → Dom r p
  unique : ∀ {r s p q t}, Dom r p → Dom s q → walk child T r p = some t →
    walk child T s q = some t → p = q ∧ (r = s ∨ Shared p)

variable (child) in
/-- The node is reached on the domain. -/
def Node (T : α → ι → ε) (Dom : α → List ι → Prop) (t : α) : Prop :=
  ∃ r p, Dom r p ∧ walk child T r p = some t

variable {Dom : α → List ι → Prop} {Shared : List ι → Prop}

theorem Forest.closed_append (h : Forest child T Dom Shared) {r : α} {p : List ι} (q : List ι)
    (hdom : Dom r (p ++ q)) :
  Dom r p
  := by
  induction q using List.reverseRecOn with
  | nil =>
      rw [List.append_nil] at hdom
      apply hdom
  | append_singleton q i ih =>
      rw [← List.append_assoc] at hdom
      apply ih (h.closed hdom)

/-- Changing the entry `i` of the node `t` at the end of the path `q`, and entries outside the
forest, keeps every walk that does not pass through that entry. -/
theorem Forest.walk_update (h : Forest child T Dom Shared) {r t : α} {q : List ι} {i : ι}
    (hq : Dom r q) (ht : walk child T r q = some t)
    (hT : ∀ s j, Node child T Dom s → (s ≠ t ∨ j ≠ i) → T' s j = T s j)
    {s : α} {p : List ι} (hp : Dom s p) :
  walk child T' s p = walk child T s p
    ∨ ∃ l, p = q ++ i :: l ∧ walk child T s q = some t ∧ walk child T' s q = some t
      ∧ (s = r ∨ Shared q)
  := by
  induction p using List.reverseRecOn with
  | nil => exact Or.inl rfl
  | append_singleton p j ih =>
      obtain hsame | ⟨l, rfl, hs⟩ := ih (h.closed hp)
      · rw [walk_concat, walk_concat, hsame]
        cases hu : walk child T s p with
        | none => exact Or.inl rfl
        | some u =>
            by_cases hedge : u = t ∧ j = i
            · obtain ⟨rfl, rfl⟩ := hedge
              obtain ⟨rfl, hshared⟩ := h.unique (h.closed hp) hq hu ht
              exact Or.inr ⟨[], rfl, hu, hsame.trans hu, hshared⟩
            · left
              simp only [Option.bind_some]
              rw [hT u j ⟨s, p, h.closed hp, hu⟩ (not_and_or.mp hedge)]
      · exact Or.inr ⟨l ++ [j], by simp, hs⟩

/-- Changing entries outside the forest keeps every walk. -/
theorem Forest.walk_outside (h : Forest child T Dom Shared)
    (hT : ∀ s j, Node child T Dom s → T' s j = T s j) {s : α} {p : List ι} (hp : Dom s p) :
  walk child T' s p = walk child T s p
  := by
  apply walk_congr
  rintro q i l t rfl ht
  apply hT
  exact ⟨s, q, h.closed_append _ hp, ht⟩

/-- A forest depends on its walks only. -/
theorem Forest.congr (h : Forest child T Dom Shared)
    (hT : ∀ s p, Dom s p → walk child T' s p = walk child T s p) :
  Forest child T' Dom Shared
  := by
  constructor
  · exact h.closed
  · intro r s p q t hp hq ht hs
    rw [hT r p hp] at ht
    rw [hT s q hq] at hs
    apply h.unique hp hq ht hs

/-- The domain of a forest may become smaller. -/
theorem Forest.mono {Dom' : α → List ι → Prop} (h : Forest child T Dom Shared)
    (hclosed : ∀ {r p i}, Dom' r (p ++ [i]) → Dom' r p) (hle : ∀ r p, Dom' r p → Dom r p) :
  Forest child T Dom' Shared
  := by
  constructor
  · exact hclosed
  · intro r s p q t hp hq
    apply h.unique (hle r p hp) (hle s q hq)

section Link

variable (h : Forest child T Dom Shared) {r t f : α} {q : List ι} {i : ι}
  (hq : Dom r q) (ht : walk child T r q = some t) (hnone : child (T t i) = none)
  (hf : ¬ Node child T Dom f)
  (hT : ∀ s j, Node child T Dom s → (s ≠ t ∨ j ≠ i) → T' s j = T s j)
  (hlink : child (T' t i) = some f)
  (hleaf : ∀ s j, Dom s (q ++ [i, j]) → child (T' f j) = none)

include h hq ht hnone hT hlink hleaf

/-- Linking a new node adds the walks that end in it. -/
theorem Forest.walk_link {s : α} {p : List ι} (hp : Dom s p) :
  walk child T' s p = walk child T s p
    ∨ (p = q ++ [i] ∧ walk child T s p = none ∧ walk child T' s p = some f
      ∧ walk child T s q = some t ∧ (s = r ∨ Shared q))
  := by
  obtain hsame | ⟨l, rfl, hs, hs', hshared⟩ := h.walk_update hq ht hT hp
  · exact Or.inl hsame
  · have hold : ∀ m, walk child T s (q ++ i :: m) = none := by
      intro m
      rw [walk_append, hs]
      simp [hnone]
    have hnew : ∀ m, walk child T' s (q ++ i :: m) = walk child T' f m := by
      intro m
      rw [walk_append, hs']
      simp [hlink]
    cases l with
    | nil => exact Or.inr ⟨rfl, hold [], hnew [], hs, hshared⟩
    | cons j l =>
        left
        have hdom : Dom s (q ++ [i, j]) := by
          apply h.closed_append l
          simpa using hp
        rw [hold, hnew, walk_cons, hleaf s j hdom]
        rfl

include hf

/-- A forest with a new node is a forest. -/
theorem Forest.link (hshared : ∀ p j, Shared p → Shared (p ++ [j])) :
  Forest child T' Dom Shared
  := by
  have hwalk := fun {s p} hp => h.walk_link hq ht hnone hT hlink hleaf (s := s) (p := p) hp
  constructor
  · exact h.closed
  · intro s s' p p' u hp hp' hu hu'
    obtain hsame | ⟨rfl, -, hnew, hs, hsh⟩ := hwalk hp
    · rw [hsame] at hu
      obtain hsame' | ⟨rfl, -, hnew', -⟩ := hwalk hp'
      · rw [hsame'] at hu'
        apply h.unique hp hp' hu hu'
      · obtain rfl := Option.some.inj (hu'.symm.trans hnew')
        exact absurd ⟨s, p, hp, hu⟩ hf
    · obtain rfl := Option.some.inj (hu.symm.trans hnew)
      obtain hsame' | ⟨rfl, -, -, hs', -⟩ := hwalk hp'
      · rw [hsame'] at hu'
        exact absurd ⟨s', p', hp', hu'⟩ hf
      · refine ⟨rfl, ?_⟩
        obtain ⟨-, heq | hsh'⟩ := h.unique (h.closed hp) (h.closed hp') hs hs'
        · exact Or.inl heq
        · exact Or.inr (hshared q i hsh')

end Link

end Trie
