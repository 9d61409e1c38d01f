import Mathlib.Logic.Relation

/-!
# Runs of a state machine

`Reachable init step s`: a run of `step` from a state satisfying `init` ends in `s`.
An invariant is proved by its base case and its step case; a run of a machine that is
allowed fewer steps is a run of the machine that is allowed more.  A loop over a list is a fold:
what its steps keep, and what one of them establishes, holds after the last one.
-/

universe u v

variable {σ : Type u}

/-- A run of `step` from a state satisfying `init` ends in the state. -/
inductive Reachable (init : σ → Prop) (step : σ → σ → Prop) : σ → Prop where
  | start {s : σ} : init s → Reachable init step s
  | next {s s' : σ} : Reachable init step s → step s s' → Reachable init step s'

/-- What holds at the start and is kept by every step holds in every reachable state. -/
theorem Reachable.invariant {init inv : σ → Prop} {step : σ → σ → Prop}
    (start : ∀ s, init s → inv s) (next : ∀ s s', inv s → step s s' → inv s')
    {s : σ} (h : Reachable init step s) :
  inv s
  := by
  induction h with
  | start h => exact start _ h
  | next _ hstep ih => exact next _ _ ih hstep

/-- Fewer steps. -/
theorem Reachable.mono {init : σ → Prop} {step step' : σ → σ → Prop}
    (hstep : ∀ s s', step s s' → step' s s') {s : σ} (h : Reachable init step s) :
  Reachable init step' s
  := by
  induction h with
  | start h => exact .start h
  | next _ hnext ih => exact ih.next (hstep _ _ hnext)

/-- Running a list of events from a reachable state ends in a reachable state. -/
theorem Reachable.run {ε : Type v} {init : σ → Prop} {step : σ → ε → Option σ} {s s' : σ}
    {es : List ε} (h : Reachable init (fun s s' => ∃ e, step s e = some s') s)
    (hrun : es.foldlM step s = some s') :
  Reachable init (fun s s' => ∃ e, step s e = some s') s'
  := by
  induction es generalizing s with
  | nil =>
      obtain rfl := Option.some.inj hrun
      exact h
  | cons e es ih =>
      obtain ⟨t, hstep, hrest⟩ := Option.bind_eq_some_iff.mp hrun
      exact ih (h.next ⟨e, hstep⟩) hrest

/-! ### Labelled runs -/

variable {τ l : Type*}

/-- A run of the labelled steps leads from the first state to the last one. -/
inductive Runs (step : σ → l → σ → Prop) : σ → List l → σ → Prop where
  | nil (s : σ) : Runs step s [] s
  | cons {s s' s'' : σ} {e : l} {es : List l} :
      step s e s' → Runs step s' es s'' → Runs step s (e :: es) s''

/-- Two runs, the second from where the first one ends, are one run. -/
theorem Runs.append {step : σ → l → σ → Prop} {s s' s'' : σ} {es es' : List l}
    (h : Runs step s es s') (h' : Runs step s' es' s'') :
  Runs step s (es ++ es') s''
  := by
  induction h with
  | nil _ => exact h'
  | cons hfirst _ ih => exact .cons hfirst (ih h')

/-- Steps that are simulated one by one are simulated in a run, with the same labels. -/
theorem Runs.simulate {step : σ → l → σ → Prop} {step' : τ → l → τ → Prop} {rel : σ → τ → Prop}
    (hstep : ∀ {s t e s'}, rel s t → step s e s' → ∃ t', step' t e t' ∧ rel s' t')
    {s s' : σ} {es : List l} (h : Runs step s es s') {t : τ} (hrel : rel s t) :
  ∃ t', Runs step' t es t' ∧ rel s' t'
  := by
  induction h generalizing t with
  | nil s => exact ⟨t, .nil t, hrel⟩
  | cons hfirst _ ih =>
      obtain ⟨t₁, hfirst', hrel₁⟩ := hstep hrel hfirst
      obtain ⟨t', hrest, hrel'⟩ := ih hrel₁
      exact ⟨t', .cons hfirst' hrest, hrel'⟩

/-- What every labelled step keeps is kept by a run. -/
theorem Runs.invariant {step : σ → l → σ → Prop} {inv : σ → Prop}
    (hstep : ∀ {s e s'}, inv s → step s e s' → inv s') {s s' : σ} {es : List l}
    (h : Runs step s es s') (hs : inv s) :
  inv s'
  := by
  induction h with
  | nil s => exact hs
  | cons hfirst _ ih => exact ih (hstep hs hfirst)

/-! ### Folds -/

section Fold

variable {α : Type v} {f : σ → α → σ} {P Q : σ → Prop}

/-- What every step over a list keeps holds after the last step. -/
theorem foldl_invariant {xs : List α} (hstep : ∀ x ∈ xs, ∀ s, P s → P (f s x)) {s : σ}
    (hs : P s) :
  P (xs.foldl f s)
  := by
  induction xs generalizing s with
  | nil => exact hs
  | cons x xs ih =>
      rw [List.forall_mem_cons] at hstep
      exact ih hstep.2 (hstep.1 s hs)

/-- What one step establishes, and the steps after it keep, holds after the last step. -/
theorem foldl_establish {xs ys : List α} {x : α}
    (hinv : ∀ y ∈ xs ++ x :: ys, ∀ s, P s → P (f s y)) (hgoal : ∀ s, P s → Q (f s x))
    (hkeep : ∀ y ∈ ys, ∀ s, P s → Q s → Q (f s y)) {s : σ} (hs : P s) :
  Q ((xs ++ x :: ys).foldl f s)
  := by
  rw [List.forall_mem_append, List.forall_mem_cons] at hinv
  obtain ⟨hxs, hx, hys⟩ := hinv
  have hbefore := foldl_invariant hxs hs
  rw [List.foldl_append, List.foldl_cons]
  have hboth : ∀ y ∈ ys, ∀ s, P s ∧ Q s → P (f s y) ∧ Q (f s y) :=
    fun y hy s h => ⟨hys y hy s h.1, hkeep y hy s h.1 h.2⟩
  exact (foldl_invariant hboth ⟨hx _ hbefore, hgoal _ hbefore⟩).2

/-- A value that only the elements of one kind write to is the one that the last of them writes, or
the one from before when there is none. -/
theorem foldl_written {β : Type*} {g : σ → β} {K : α → Prop} [DecidablePred K] {v : α → β}
    (hstep : ∀ s x, g (f s x) = if K x then v x else g s) (xs : List α) (s : σ) :
  (∃ pre x post, xs = pre ++ x :: post ∧ K x ∧ (∀ y ∈ post, ¬ K y) ∧ g (xs.foldl f s) = v x)
    ∨ ((∀ x ∈ xs, ¬ K x) ∧ g (xs.foldl f s) = g s)
  := by
  induction xs generalizing s with
  | nil => exact Or.inr ⟨nofun, rfl⟩
  | cons x xs ih =>
      rw [List.foldl_cons]
      obtain ⟨pre, y, post, rfl, hy, hpost, hlast⟩ | ⟨hnone, hkept⟩ := ih (f s x)
      · exact Or.inl ⟨x :: pre, y, post, rfl, hy, hpost, hlast⟩
      · by_cases hx : K x
        · refine Or.inl ⟨[], x, xs, rfl, hx, hnone, ?_⟩
          rw [hkept, hstep, if_pos hx]
        · refine Or.inr ⟨List.forall_mem_cons.mpr ⟨hx, hnone⟩, ?_⟩
          rw [hkept, hstep, if_neg hx]

end Fold
