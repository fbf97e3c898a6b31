import Mathlib.Data.Nat.Init
import ProtostarNest.Lib.Transition

/-!
# Executions

Infinite runs of a labelled transition system, and what holds on them sooner or later.

* `Execution`: a run that goes on forever; it may idle, so each finite run is one
  (`Execution.ofRun`);
* `history`, `invariant_history`: the steps so far, and invariants that speak of them;
* `WeaklyFair`, `WeaklyFair.exists_step`: steps that stay possible are made;
* `LeadsTo`, `Unless`, `Stable`: what holds later, until something else, and from now on, with
  `LeadsTo.of_rank` for an induction, `LeadsTo.of_unless` to follow what holds meanwhile, and
  `Stable.exists_forall` for goals that are reached one by one;
* `drop`, `ofRounds`: the execution from some time on, and one that makes its steps in rounds;
* `map`: the execution of a part of the system, which is as fair.
-/

namespace Transition

variable {σ ε : Type*}

/-- A step with a label in `L` can be made. -/
def Enabled (step : σ → ε → Option σ) (L : ε → Prop) (s : σ) : Prop :=
  ∃ e t, L e ∧ step s e = some t

structure Execution (step : σ → ε → Option σ) where
  state : ℕ → σ
  label : ℕ → Option ε
  idle : ∀ n, label n = none → state (n + 1) = state n
  next : ∀ n e, label n = some e → step (state n) e = some (state (n + 1))

namespace Execution

variable {step : σ → ε → Option σ} (x : Execution step)

/-- Each step satisfies `C` in the state before it. -/
def Meets (C : σ → ε → Prop) : Prop := ∀ n e, x.label n = some e → C (x.state n) e

/-- The first `n` steps, each with the states before and after it. -/
def history : ℕ → List (σ × ε × σ)
  | 0 => []
  | n + 1 =>
      match x.label n with
      | none => history n
      | some e => history n ++ [(x.state n, e, x.state (n + 1))]

def WeaklyFair (L : ε → Prop) : Prop :=
  ∀ n, (∀ m, n ≤ m → Enabled step L (x.state m)) → ∃ m e, n ≤ m ∧ L e ∧ x.label m = some e

def LeadsTo (P Q : σ → Prop) : Prop := ∀ n, P (x.state n) → ∃ m, n ≤ m ∧ Q (x.state m)

/-- `P` is kept until `Q` holds. -/
def Unless (P Q : σ → Prop) : Prop :=
  ∀ n, P (x.state n) → P (x.state (n + 1)) ∨ Q (x.state (n + 1))

def Stable (P : σ → Prop) : Prop := ∀ n, P (x.state n) → P (x.state (n + 1))

variable {x} {P Q R : σ → Prop} {C : σ → ε → Prop} {L : ε → Prop}

/-! ### Safety -/

/-- What holds in the beginning and is kept by the steps holds always, also of the history. -/
theorem invariant_history {Inv : List (σ × ε × σ) → σ → Prop} (hC : x.Meets C)
    (hstep : ∀ l s e t, Inv l s → C s e → step s e = some t → Inv (l ++ [(s, e, t)]) t)
    (h : Inv [] (x.state 0)) : ∀ n, Inv (x.history n) (x.state n) := by
  intro n
  induction n with
  | zero => exact h
  | succ n ih =>
    unfold history
    split
    · rename_i hidle
      rw [x.idle n hidle]
      exact ih
    · rename_i e he
      exact hstep _ _ e _ ih (hC n e he) (x.next n e he)

theorem Unless.of_step (hC : x.Meets C)
    (h : ∀ s e t, P s → C s e → step s e = some t → P t ∨ Q t) : x.Unless P Q := by
  intro n hn
  cases he : x.label n with
  | none =>
    rw [x.idle n he]
    exact Or.inl hn
  | some e => exact h _ e _ hn (hC n e he) (x.next n e he)

/-- From `P` on, `P` holds as long as `Q` has not. -/
theorem Unless.forall_le (h : x.Unless P Q) {n : ℕ} (hn : P (x.state n)) :
    ∀ m, n ≤ m → (∃ k, n ≤ k ∧ k ≤ m ∧ Q (x.state k)) ∨ P (x.state m) := by
  intro m hm
  induction m, hm using Nat.le_induction with
  | base => exact Or.inr hn
  | succ m hm ih =>
    rcases ih with ⟨k, hnk, hkm, hk⟩ | hP
    · exact Or.inl ⟨k, hnk, Nat.le_succ_of_le hkm, hk⟩
    · rcases h m hP with hP' | hQ
      · exact Or.inr hP'
      · exact Or.inl ⟨m + 1, Nat.le_succ_of_le hm, Nat.le_refl _, hQ⟩

theorem Stable.of_step (h : ∀ s e t, P s → step s e = some t → P t) : x.Stable P := by
  intro n hn
  cases he : x.label n with
  | none => rw [x.idle n he]; exact hn
  | some e => exact h _ e _ hn (x.next n e he)

/-- What is kept by the steps that the execution makes. -/
theorem Stable.of_meets (hC : x.Meets C) (h : ∀ s e t, P s → C s e → step s e = some t → P t) :
    x.Stable P := by
  intro n hn
  cases he : x.label n with
  | none => rw [x.idle n he]; exact hn
  | some e => exact h _ e _ hn (hC n e he) (x.next n e he)

theorem Stable.of_le (h : x.Stable P) {n m : ℕ} (hn : P (x.state n)) (hm : n ≤ m) :
    P (x.state m) := by
  induction m, hm using Nat.le_induction with
  | base => exact hn
  | succ m _ ih => exact h m ih

/-- An inductive invariant holds in every state of an execution. -/
theorem invariant (hstep : ∀ s e t, P s → step s e = some t → P t) (h : P (x.state 0)) (n : ℕ) :
    P (x.state n) :=
  (Stable.of_step hstep).of_le h (Nat.zero_le n)

/-- Stable goals that are each reached hold together in the end. -/
theorem Stable.exists_forall {ι : Type*} {G : ι → σ → Prop} (hG : ∀ i, x.Stable (G i)) {n : ℕ}
    (l : List ι) (h : ∀ i ∈ l, ∃ m, n ≤ m ∧ G i (x.state m)) :
    ∃ m, n ≤ m ∧ ∀ i ∈ l, G i (x.state m) := by
  induction l with
  | nil => exact ⟨n, Nat.le_refl n, by simp⟩
  | cons i l ih =>
    obtain ⟨m₁, hn₁, h₁⟩ := h i List.mem_cons_self
    obtain ⟨m₂, hn₂, h₂⟩ := ih fun j hj => h j (List.mem_cons_of_mem _ hj)
    refine ⟨max m₁ m₂, by omega, fun j hj => ?_⟩
    rcases List.mem_cons.1 hj with rfl | hj
    · exact (hG j).of_le h₁ (by omega)
    · exact (hG j).of_le (h₂ j hj) (by omega)

/-! ### Progress -/

/-- A fair step that becomes and stays possible, as long as `P` holds, is made while `P` holds, when
only such steps end `P`: without one, `P` would hold forever. -/
theorem WeaklyFair.exists_step (hfair : x.WeaklyFair L)
    (hkeep : ∀ s e t, P s → ¬ L e → step s e = some t → P t) {n : ℕ} (hn : P (x.state n))
    (hen : ∃ n', n ≤ n' ∧ ∀ m, n' ≤ m → P (x.state m) → Enabled step L (x.state m)) :
    ∃ m e, n ≤ m ∧ L e ∧ x.label m = some e ∧ P (x.state m) := by
  by_contra hnever
  have hP : ∀ m, n ≤ m → P (x.state m) := by
    intro m hm
    induction m, hm using Nat.le_induction with
    | base => exact hn
    | succ m hm ih =>
      cases he : x.label m with
      | none =>
        rw [x.idle m he]
        exact ih
      | some e => exact hkeep _ e _ ih (fun hL => hnever ⟨m, e, hm, hL, he, ih⟩) (x.next m e he)
  obtain ⟨n', hn', hen⟩ := hen
  obtain ⟨m, e, hm, hL, he⟩ := hfair n' fun m hm => hen m hm (hP m (by omega))
  exact hnever ⟨m, e, by omega, hL, he, hP m (by omega)⟩

/-- What `P` leads to comes while `P` still holds, or `Q` comes before. -/
theorem LeadsTo.of_unless (h : x.LeadsTo P R) (hkeep : x.Unless P Q) :
    x.LeadsTo P fun s => Q s ∨ (P s ∧ R s) := by
  intro n hn
  obtain ⟨m, hm, hR⟩ := h n hn
  rcases hkeep.forall_le hn m hm with ⟨k, hk, -, hQ⟩ | hP
  · exact ⟨k, hk, Or.inl hQ⟩
  · exact ⟨m, hm, Or.inr ⟨hP, hR⟩⟩

/-- Induction on a rank. -/
theorem LeadsTo.of_rank {P : ℕ → σ → Prop}
    (h : ∀ k, x.LeadsTo (P k) fun s => Q s ∨ ∃ j, j < k ∧ P j s) (k : ℕ) : x.LeadsTo (P k) Q := by
  induction k using Nat.strong_induction_on with
  | _ k ih =>
    intro n hn
    obtain ⟨m, hm, hQ | ⟨j, hj, hP⟩⟩ := h k n hn
    · exact ⟨m, hm, hQ⟩
    · obtain ⟨m', hm', hQ⟩ := ih j hj m hP
      exact ⟨m', by omega, hQ⟩

/-! ### From a time on -/

/-- The execution from its state number `n` on. -/
def drop (x : Execution step) (n : ℕ) : Execution step where
  state m := x.state (n + m)
  label m := x.label (n + m)
  idle m h := x.idle (n + m) h
  next m e h := x.next (n + m) e h

theorem WeaklyFair.drop (h : x.WeaklyFair L) (n : ℕ) : (x.drop n).WeaklyFair L := by
  intro m hen
  have hlater : ∀ k, n + m ≤ k → Enabled step L (x.state k) := by
    intro k hk
    obtain ⟨j, rfl⟩ := Nat.exists_eq_add_of_le (show n ≤ k by omega)
    exact hen j (by omega)
  obtain ⟨k, e, hk, hL, he⟩ := h (n + m) hlater
  obtain ⟨j, rfl⟩ := Nat.exists_eq_add_of_le (show n ≤ k by omega)
  exact ⟨j, e, by omega, hL, he⟩

/-! ### A part of the system -/

section Map

variable {τ δ : Type*} {astep : τ → δ → Option τ} {f : σ → τ} {g : σ → ε → Option δ}
  (hidle : ∀ s e t, step s e = some t → g s e = none → f t = f s)
  (hnext : ∀ s e t d, step s e = some t → g s e = some d → astep (f s) d = some (f t))

/-- What the system does to the part `f` of its state: steps with the labels `g`, or nothing. -/
def map (x : Execution step) : Execution astep where
  state n := f (x.state n)
  label n := (x.label n).bind (g (x.state n))
  idle n hn := by
    cases he : x.label n with
    | none => rw [x.idle n he]
    | some e =>
      rw [he, Option.bind_some] at hn
      exact hidle _ e _ (x.next n e he) hn
  next n d hd := by
    obtain ⟨e, he, hg⟩ := Option.bind_eq_some_iff.1 hd
    exact hnext _ e _ d (x.next n e he) hg

theorem WeaklyFair.map {L' : δ → Prop} (hfair : x.WeaklyFair L)
    (hen : ∀ s, Enabled astep L' (f s) → Enabled step L s)
    (hlabel : ∀ s e, L e → ∃ d, g s e = some d ∧ L' d) : (x.map hidle hnext).WeaklyFair L' := by
  intro n hall
  obtain ⟨m, e, hm, hL, he⟩ := hfair n fun m hm => hen _ (hall m hm)
  obtain ⟨d, hd, hL'⟩ := hlabel (x.state m) e hL
  refine ⟨m, d, hm, hL', ?_⟩
  show (x.label m).bind _ = some d
  rw [he, Option.bind_some, hd]

end Map

/-! ### Rounds -/

section OfRounds

variable {w : ℕ} (hw : 0 < w) {state : ℕ → ℕ → σ} {label : ℕ → ℕ → ε}
  (hstep : ∀ k r, r < w → step (state k r) (label k r) = some (state k (r + 1)))
  (hround : ∀ k, state k w = state (k + 1) 0)

/-- The execution that makes `w` steps in each round. -/
def ofRounds : Execution step where
  state n := state (n / w) (n % w)
  label n := some (label (n / w) (n % w))
  idle n hn := by cases hn
  next n e he := by
    obtain rfl := Option.some.inj he
    have hlt := Nat.mod_lt n hw
    rw [hstep _ _ hlt]
    by_cases hlast : n % w + 1 = w
    · have hn := Nat.div_add_mod n w
      have hdvd : w ∣ n + 1 := ⟨n / w + 1, by rw [Nat.mul_succ]; omega⟩
      rw [hlast, hround, Nat.succ_div_of_dvd hdvd, Nat.mod_eq_zero_of_dvd hdvd]
    · have hmod : (n + 1) % w = n % w + 1 := by
        rw [Nat.add_mod, Nat.mod_eq_of_lt (show 1 < w by omega),
          Nat.mod_eq_of_lt (show n % w + 1 < w by omega)]
      have hdvd : ¬ w ∣ n + 1 := fun hd => by
        rw [Nat.mod_eq_zero_of_dvd hd] at hmod
        omega
      rw [hmod, Nat.succ_div_of_not_dvd hdvd]

variable {k r : ℕ} (hr : r < w)
include hr

theorem ofRounds_state : (ofRounds hw hstep hround).state (w * k + r) = state k r := by
  show state ((w * k + r) / w) ((w * k + r) % w) = state k r
  rw [Nat.mul_add_div hw, Nat.div_eq_of_lt hr, Nat.mul_add_mod, Nat.mod_eq_of_lt hr, Nat.add_zero]

theorem ofRounds_label : (ofRounds hw hstep hround).label (w * k + r) = some (label k r) := by
  show some (label ((w * k + r) / w) ((w * k + r) % w)) = _
  rw [Nat.mul_add_div hw, Nat.div_eq_of_lt hr, Nat.mul_add_mod, Nat.mod_eq_of_lt hr, Nat.add_zero]

omit hr

/-- Each step belongs to a round. -/
theorem ofRounds_meets (h : ∀ k r, r < w → C (state k r) (label k r)) :
    (ofRounds hw hstep hround).Meets C := by
  intro n e he
  obtain rfl := Option.some.inj he
  exact h _ _ (Nat.mod_lt n hw)

end OfRounds

/-! ### Finite runs -/

/-- The run of `es`, which idles at its end. -/
def ofRun {s t : σ} {es : List ε} (h : run step s es = some t) : Execution step where
  state n := (run step s (es.take n)).getD s
  label n := es[n]?
  idle n hn := by
    have hle := List.getElem?_eq_none_iff.1 hn
    rw [List.take_of_length_le hle, List.take_of_length_le (by omega)]
  next n e he := by
    obtain ⟨hlt, rfl⟩ := List.getElem?_eq_some_iff.1 he
    rw [← List.take_append_drop (n + 1) es] at h
    obtain ⟨u, hu, -⟩ := (run_append_eq_some step).1 h
    have hsplit := hu
    rw [List.take_succ_eq_append_getElem hlt] at hsplit
    obtain ⟨v, hv, hstep⟩ := (run_append_eq_some step).1 hsplit
    obtain ⟨u', hu', hnil⟩ := (run_cons_eq_some step).1 hstep
    cases hnil
    rw [hu, hv]
    exact hu'

section OfRun

variable {s t : σ} {es : List ε} (h : run step s es = some t)

/-- The steps of the execution are those of the run. -/
theorem ofRun_meets (hC : Transition.Meets step C s es) : (ofRun h).Meets C := by
  intro n e he
  obtain ⟨hlt, rfl⟩ := List.getElem?_eq_some_iff.1 he
  have hsplit : es.take n ++ es[n] :: es.drop (n + 1) = es := by
    rw [List.getElem_cons_drop, List.take_append_drop]
  rw [← hsplit] at h hC
  obtain ⟨u, hu, hrest⟩ := (run_append_eq_some step).1 h
  obtain ⟨v, hv, -⟩ := (run_cons_eq_some step).1 hrest
  have hstate : (run step s (es.take n)).getD s = u := by rw [hu]; rfl
  show C ((run step s (es.take n)).getD s) es[n]
  rw [hstate]
  exact ((hC.of_run hu) v hv).1

/-- From its end on it stays where it is. -/
theorem ofRun_state {n : ℕ} (hn : es.length ≤ n) : (ofRun h).state n = t := by
  show (run step s (es.take n)).getD s = t
  rw [List.take_of_length_le hn, h]
  rfl

/-- A run that ends where no step of `L` is possible is fair to these steps. -/
theorem ofRun_weaklyFair (hend : ¬ Enabled step L t) : (ofRun h).WeaklyFair L := by
  intro n hen
  have hstate := ofRun_state h (Nat.le_max_right n es.length)
  exact absurd (hstate ▸ hen _ (Nat.le_max_left n es.length)) hend

end OfRun

end Execution

end Transition
