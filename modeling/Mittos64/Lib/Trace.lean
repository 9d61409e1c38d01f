import Mittos64.Lib.Run

/-!
# Traces

A machine whose steps are either silent or show an event.  `Trace step s es s'` is a run that shows
the events `es`.  A machine whose steps are simulated, a silent step by silent ones and an event by
a run that shows just this event, has no other traces than the one that simulates it; an invariant
may be carried along.
-/

variable {σ τ l : Type*}

/-- A run from the first state to the last one that shows the events. -/
inductive Trace (step : σ → Option l → σ → Prop) : σ → List l → σ → Prop where
  | nil (s : σ) : Trace step s [] s
  | silent {s s' s'' : σ} {es : List l} :
      step s none s' → Trace step s' es s'' → Trace step s es s''
  | event {s s' s'' : σ} {e : l} {es : List l} :
      step s (some e) s' → Trace step s' es s'' → Trace step s (e :: es) s''

namespace Trace

variable {step : σ → Option l → σ → Prop} {step' : τ → Option l → τ → Prop}
  {s s' s'' : σ} {es es' : List l}

/-- One step shows its event, if it has one. -/
theorem single {o : Option l} (h : step s o s') :
  Trace step s o.toList s'
  := by
  cases o with
  | none => exact .silent h (.nil s')
  | some e => exact .event h (.nil s')

/-- Two runs, the second from where the first one ends, are one run. -/
theorem append (h : Trace step s es s') (h' : Trace step s' es' s'') :
  Trace step s (es ++ es') s''
  := by
  induction h with
  | nil _ => exact h'
  | silent hfirst _ ih => exact .silent hfirst (ih h')
  | event hfirst _ ih => exact .event hfirst (ih h')

/-- What every step keeps is kept by a run. -/
theorem invariant {inv : σ → Prop} (hstep : ∀ {s o s'}, inv s → step s o s' → inv s')
    (h : Trace step s es s') (hs : inv s) :
  inv s'
  := by
  induction h with
  | nil _ => exact hs
  | silent hfirst _ ih => exact ih (hstep hs hfirst)
  | event hfirst _ ih => exact ih (hstep hs hfirst)

/-- When every step is simulated by a run that shows the same events, so is every run. -/
theorem simulate {rel : σ → τ → Prop}
    (hstep : ∀ {s t o s'}, rel s t → step s o s' → ∃ t', Trace step' t o.toList t' ∧ rel s' t')
    (h : Trace step s es s') {t : τ} (hrel : rel s t) :
  ∃ t', Trace step' t es t' ∧ rel s' t'
  := by
  induction h generalizing t with
  | nil _ => exact ⟨t, .nil t, hrel⟩
  | silent hfirst _ ih =>
      obtain ⟨t₁, hfirst', hrel₁⟩ := hstep hrel hfirst
      obtain ⟨t', hrest, hrel'⟩ := ih hrel₁
      exact ⟨t', hfirst'.append hrest, hrel'⟩
  | event hfirst _ ih =>
      obtain ⟨t₁, hfirst', hrel₁⟩ := hstep hrel hfirst
      obtain ⟨t', hrest, hrel'⟩ := ih hrel₁
      exact ⟨t', hfirst'.append hrest, hrel'⟩

/-- When every step is simulated until something happens in the simulation, every run is simulated,
or a part of it from the start up to where that happens. -/
theorem simulate_until {rel : σ → τ → Prop} {done : τ → Prop}
    (hstep : ∀ {s t o s'}, rel s t → step s o s' →
      ∃ t', Trace step' t o.toList t' ∧ (rel s' t' ∨ done t'))
    (h : Trace step s es s') {t : τ} (hrel : rel s t) :
  (∃ t', Trace step' t es t' ∧ rel s' t')
    ∨ ∃ es' t', es' <+: es ∧ Trace step' t es' t' ∧ done t'
  := by
  induction h generalizing t with
  | nil _ => exact Or.inl ⟨t, .nil t, hrel⟩
  | silent hfirst _ ih =>
      obtain ⟨t₁, hfirst', hrel₁ | hdone⟩ := hstep hrel hfirst
      · rcases ih hrel₁ with ⟨t', hrest, hrel'⟩ | ⟨es', t', hprefix, hrest, hdone⟩
        · exact Or.inl ⟨t', hfirst'.append hrest, hrel'⟩
        · exact Or.inr ⟨es', t', hprefix, hfirst'.append hrest, hdone⟩
      · exact Or.inr ⟨[], t₁, List.nil_prefix, hfirst', hdone⟩
  | @event _ _ _ e _ hfirst _ ih =>
      obtain ⟨t₁, hfirst', hrel₁ | hdone⟩ := hstep hrel hfirst
      · rcases ih hrel₁ with ⟨t', hrest, hrel'⟩ | ⟨es', t', hprefix, hrest, hdone⟩
        · exact Or.inl ⟨t', hfirst'.append hrest, hrel'⟩
        · refine Or.inr ⟨e :: es', t', ?_, hfirst'.append hrest, hdone⟩
          exact List.cons_prefix_cons.mpr ⟨rfl, hprefix⟩
      · refine Or.inr ⟨[e], t₁, ?_, hfirst', hdone⟩
        exact List.cons_prefix_cons.mpr ⟨rfl, List.nil_prefix⟩

/-! ### Monitors -/

/-- The steps of a machine together with those of a monitor that follows its events. -/
def Monitored (step : σ → Option l → σ → Prop) (own : τ → l → τ → Prop) (p : σ × τ) (o : Option l)
    (p' : σ × τ) : Prop :=
  step p.1 o p'.1 ∧ match o with
    | none => p'.2 = p.2
    | some e => own p.2 e p'.2

/-- A run whose events the monitor can follow is a run of both. -/
theorem monitor {own : τ → l → τ → Prop} {t t' : τ} (h : Trace step s es s')
    (hown : Runs own t es t') :
  Trace (Monitored step own) (s, t) es (s', t')
  := by
  induction h generalizing t with
  | nil s =>
      cases hown with
      | nil => exact .nil _
  | @silent s₁ s₂ _ _ hfirst _ ih =>
      have hboth : Monitored step own (s₁, t) none (s₂, t) := ⟨hfirst, rfl⟩
      exact .silent hboth (ih hown)
  | event hfirst _ ih =>
      cases hown with
      | cons hfirst' hrest => exact .event ⟨hfirst, hfirst'⟩ (ih hrest)

end Trace
