import Mathlib.Data.List.Basic
import Mathlib.Tactic.TypeStar

/-!
# Labelled transitions with a partial step function

A system is a function `step : σ → ε → Option σ`: the label `e` is enabled in the state `s`
when `step s e` is `some t`.  Everything below is over arbitrary states and labels.

* `run`, `Visits`, `Reachable`: finite runs and the states on them;
* `Meets C`: each step of a run satisfies a condition on the state before it and its label;
* `invariant_of_meets`: an invariant kept by the steps that satisfy the condition holds in
  every state that a run of such steps visits;
* `Simulates`: each step of one system is a finite run of another, and so is each run.
-/

namespace Transition

variable {σ ε : Type*} (step : σ → ε → Option σ)

/-- The state after a list of labels, `none` when one of them is not enabled. -/
def run (s : σ) : List ε → Option σ
  | [] => some s
  | e :: es => (step s e).bind fun t => run t es

@[simp] theorem run_nil (s : σ) : run step s [] = some s := rfl

theorem run_cons (s : σ) (e : ε) (es : List ε) :
    run step s (e :: es) = (step s e).bind fun t => run step t es := rfl

theorem run_cons_some {s t : σ} {e : ε} (es : List ε) (h : step s e = some t) :
    run step s (e :: es) = run step t es := by
  rw [run_cons, h, Option.bind_some]

theorem run_cons_eq_some {s u : σ} {e : ε} {es : List ε} :
    run step s (e :: es) = some u ↔ ∃ t, step s e = some t ∧ run step t es = some u := by
  rw [run_cons, Option.bind_eq_some_iff]

theorem run_append (s : σ) (es fs : List ε) :
    run step s (es ++ fs) = (run step s es).bind fun t => run step t fs := by
  induction es generalizing s with
  | nil => rfl
  | cons e es ih =>
    rw [List.cons_append, run_cons, run_cons]
    cases step s e with
    | none => rfl
    | some t => exact ih t

theorem run_append_eq_some {s u : σ} {es fs : List ε} :
    run step s (es ++ fs) = some u ↔ ∃ t, run step s es = some t ∧ run step t fs = some u := by
  rw [run_append, Option.bind_eq_some_iff]

theorem run_concat {s t u : σ} {es : List ε} {e : ε} (hs : run step s es = some t)
    (ht : step t e = some u) : run step s (es ++ [e]) = some u := by
  rw [run_append, hs, Option.bind_some, run_cons_some step [] ht, run_nil]

theorem run_concat_eq_some {s u : σ} {es : List ε} {e : ε} :
    run step s (es ++ [e]) = some u ↔ ∃ t, run step s es = some t ∧ step t e = some u := by
  rw [run_append_eq_some]
  simp only [run_cons_eq_some, run_nil, Option.some.injEq, exists_eq_right]

/-- `t` is one of the states that the run of `es` from `s` goes through, both ends included. -/
def Visits (s : σ) (es : List ε) (t : σ) : Prop :=
  ∃ pre, pre <+: es ∧ run step s pre = some t

/-- `t` is the end of some run from `s`. -/
def Reachable (s t : σ) : Prop := ∃ es, run step s es = some t

/-- Each enabled step of the run of `es` from `s` satisfies `C` in the state before it. -/
def Meets (C : σ → ε → Prop) (s : σ) : List ε → Prop
  | [] => True
  | e :: es => ∀ t, step s e = some t → C s e ∧ Meets C t es

variable {step}

theorem Visits.of_run {s t : σ} {es : List ε} (h : run step s es = some t) :
    Visits step s es t := ⟨es, List.prefix_rfl, h⟩

/-- The end of a run, from a value computed there. -/
theorem Visits.of_run_map {β : Type*} {f : σ → β} {b : β} {s : σ} {es : List ε}
    (h : (run step s es).map f = some b) : ∃ t, Visits step s es t ∧ f t = b := by
  obtain ⟨t, ht, hb⟩ := Option.map_eq_some_iff.1 h
  exact ⟨t, Visits.of_run ht, hb⟩

theorem visits_start (s : σ) (es : List ε) : Visits step s es s :=
  ⟨[], List.nil_prefix, rfl⟩

theorem Visits.cons {s t u : σ} {e : ε} {es : List ε} (hs : step s e = some t)
    (h : Visits step t es u) : Visits step s (e :: es) u := by
  obtain ⟨pre, hpre, hrun⟩ := h
  exact ⟨e :: pre, (List.prefix_cons_inj e).2 hpre, by rw [run_cons_some step pre hs, hrun]⟩

theorem visits_cons {s u : σ} {e : ε} {es : List ε} :
    Visits step s (e :: es) u ↔ u = s ∨ ∃ t, step s e = some t ∧ Visits step t es u := by
  constructor
  · rintro ⟨pre, hpre, hrun⟩
    cases pre with
    | nil => exact Or.inl (Option.some.inj hrun).symm
    | cons f pre =>
      obtain ⟨rfl, hpre'⟩ := List.cons_prefix_cons.1 hpre
      obtain ⟨t, hs, ht⟩ := (run_cons_eq_some step).1 hrun
      exact Or.inr ⟨t, hs, pre, hpre', ht⟩
  · rintro (rfl | ⟨t, hs, ht⟩)
    · exact visits_start u _
    · exact ht.cons hs

theorem Reachable.refl (s : σ) : Reachable step s s := ⟨[], rfl⟩

theorem Reachable.tail {s t u : σ} {e : ε} (h : Reachable step s t) (he : step t e = some u) :
    Reachable step s u := by
  obtain ⟨es, hes⟩ := h
  exact ⟨es ++ [e], run_concat step hes he⟩

theorem Reachable.trans {s t u : σ} (h : Reachable step s t) (h' : Reachable step t u) :
    Reachable step s u := by
  obtain ⟨es, hes⟩ := h
  obtain ⟨fs, hfs⟩ := h'
  exact ⟨es ++ fs, (run_append_eq_some step).2 ⟨t, hes, hfs⟩⟩

theorem Visits.reachable {s t : σ} {es : List ε} (h : Visits step s es t) :
    Reachable step s t := by
  obtain ⟨pre, -, hrun⟩ := h
  exact ⟨pre, hrun⟩

/-- What one step keeps, provided the step satisfies `C`, holds in every state of a run whose
steps all satisfy `C`. -/
theorem invariant_of_meets {C : σ → ε → Prop} {Inv : σ → Prop}
    (hstep : ∀ s e t, Inv s → C s e → step s e = some t → Inv t)
    {s : σ} {es : List ε} (hs : Inv s) (hC : Meets step C s es) :
    ∀ t, Visits step s es t → Inv t := by
  induction es generalizing s with
  | nil =>
    rintro t ⟨pre, hpre, hrun⟩
    obtain rfl := List.prefix_nil.1 hpre
    cases hrun
    exact hs
  | cons e es ih =>
    intro t ht
    rcases visits_cons.1 ht with rfl | ⟨u, hu, ht⟩
    · exact hs
    · obtain ⟨hce, hces⟩ := hC u hu
      exact ih (hstep s e u hs hce hu) hces t ht

/-- The unconditional form: an inductive invariant holds in every reachable state. -/
theorem invariant {Inv : σ → Prop} (hstep : ∀ s e t, Inv s → step s e = some t → Inv t)
    {s : σ} (hs : Inv s) {t : σ} (h : Reachable step s t) : Inv t := by
  obtain ⟨es, hrun⟩ := h
  induction es generalizing s with
  | nil => cases hrun; exact hs
  | cons e es ih =>
    obtain ⟨u, hu, hrun⟩ := (run_cons_eq_some step).1 hrun
    exact ih (hstep s e u hs hu) hrun

instance decidableMeets {C : σ → ε → Prop} [∀ s e, Decidable (C s e)] (s : σ) :
    (es : List ε) → Decidable (Meets step C s es)
  | [] => isTrue trivial
  | e :: es =>
      match h : step s e with
      | none => isTrue fun t ht => by rw [h] at ht; cases ht
      | some t =>
          haveI := decidableMeets (C := C) t es
          decidable_of_iff (C s e ∧ Meets step C t es)
            ⟨fun hc u hu => by rw [h] at hu; cases hu; exact hc, fun hc => hc t h⟩

/-- The rest of a run meets what the whole of it meets. -/
theorem Meets.of_run {C : σ → ε → Prop} {s t : σ} {es fs : List ε}
    (h : Meets step C s (es ++ fs)) (hrun : run step s es = some t) : Meets step C t fs := by
  induction es generalizing s with
  | nil => cases hrun; exact h
  | cons e es ih =>
    obtain ⟨u, hu, hrun⟩ := (run_cons_eq_some step).1 hrun
    exact ih (h u hu).2 hrun

theorem Meets.of_append {C : σ → ε → Prop} {s : σ} {es fs : List ε}
    (h : Meets step C s (es ++ fs)) : Meets step C s es := by
  induction es generalizing s with
  | nil => trivial
  | cons e es ih => exact fun t ht => ⟨(h t ht).1, ih (h t ht).2⟩

/-- One more step at the end. -/
theorem Meets.concat {C : σ → ε → Prop} {s t : σ} {es : List ε} {e : ε} (h : Meets step C s es)
    (hrun : run step s es = some t) (he : C t e) : Meets step C s (es ++ [e]) := by
  induction es generalizing s with
  | nil =>
    cases hrun
    exact fun u _ => ⟨he, trivial⟩
  | cons f es ih =>
    intro u hu
    obtain ⟨v, hv, hrun⟩ := (run_cons_eq_some step).1 hrun
    rw [hu] at hv
    cases hv
    exact ⟨(h u hu).1, ih (h u hu).2 hrun⟩

theorem Meets.and {C D : σ → ε → Prop} {s : σ} {es : List ε} (hC : Meets step C s es)
    (hD : Meets step D s es) : Meets step (fun s e => C s e ∧ D s e) s es := by
  induction es generalizing s with
  | nil => trivial
  | cons e es ih =>
    exact fun t ht => ⟨⟨(hC t ht).1, (hD t ht).1⟩, ih (hC t ht).2 (hD t ht).2⟩

/-- A condition on the labels alone. -/
theorem Meets.of_forall {C : σ → ε → Prop} {s : σ} {es : List ε} (h : ∀ s, ∀ e ∈ es, C s e) :
    Meets step C s es := by
  induction es generalizing s with
  | nil => trivial
  | cons e es ih =>
    exact fun t _ => ⟨h s e List.mem_cons_self, ih fun s e he => h s e (List.mem_cons_of_mem _ he)⟩

/-- A condition that holds in every visited state is met by every step. -/
theorem meets_of_visits {C : σ → ε → Prop} {s : σ} {es : List ε}
    (h : ∀ t e u, Visits step s es t → Visits step s es u → step t e = some u → C t e) :
    Meets step C s es := by
  induction es generalizing s with
  | nil => trivial
  | cons e es ih =>
    intro t ht
    refine ⟨h s e t (visits_start s _) ((visits_start t es).cons ht) ht, ih ?_⟩
    intro t' e' u ht' hu hstep
    exact h t' e' u (ht'.cons ht) (hu.cons ht) hstep

/-! ### Simulation -/

section Simulation

variable {τ δ : Type*} (astep : τ → δ → Option τ)

/-- `abs` maps each step of `step` from a state satisfying `Inv` to a finite run of `astep`. -/
def Simulates (step : σ → ε → Option σ) (astep : τ → δ → Option τ) (Inv : σ → Prop)
    (abs : σ → τ) : Prop :=
  ∀ s e t, Inv s → step s e = some t → ∃ ds, run astep (abs s) ds = some (abs t)

variable {astep}

/-- A simulation carries reachability over. -/
theorem Simulates.reachable {Inv : σ → Prop} {abs : σ → τ}
    (hsim : Simulates step astep Inv abs)
    (hstep : ∀ s e t, Inv s → step s e = some t → Inv t) {s t : σ} (hs : Inv s)
    (h : Reachable step s t) : Reachable astep (abs s) (abs t) := by
  obtain ⟨es, hrun⟩ := h
  induction es generalizing s with
  | nil => cases hrun; exact Reachable.refl _
  | cons e es ih =>
    obtain ⟨u, hu, hrun⟩ := (run_cons_eq_some step).1 hrun
    obtain ⟨ds, hds⟩ := hsim s e u hs hu
    obtain ⟨ds', hds'⟩ := ih (hstep s e u hs hu) hrun
    exact ⟨ds ++ ds', (run_append_eq_some astep).2 ⟨_, hds, hds'⟩⟩

end Simulation

end Transition
