import Mathlib.Data.Multiset.UnionInter
import ProtostarNest.Lib.Transition

/-!
# First come, first served

A service point with one waiting line and any number of servers, over an arbitrary type of jobs.
A job arrives at the end of the line, starts when it is the first of it, and finishes at any
time after that.

* `Fifo`: the line, the jobs being served, and the logs of arrivals, starts and completions;
* `Ordered`: the arrivals are the starts followed by the line, without repetition, and the
  started jobs are those in service together with the finished ones;
* `ordered_of_reachable` and its consequences: nothing is lost, repeated or overtaken.
-/

/-- A waiting line with its servers; the logs are in the order of the events. -/
structure Fifo (τ : Type*) where
  arrived : List τ
  started : List τ
  finished : List τ
  waiting : List τ
  serving : Multiset τ

namespace Fifo

open Transition

variable {τ : Type*}

inductive Label (τ : Type*)
  | arrive (job : τ)
  | start
  | finish (job : τ)

/-- Nobody has come yet. -/
def init : Fifo τ := ⟨[], [], [], [], 0⟩

/-- A job arrives only once, and only a job in service can finish. -/
def step [DecidableEq τ] (s : Fifo τ) : Label τ → Option (Fifo τ)
  | .arrive job =>
      if job ∈ s.arrived then none
      else some { s with arrived := s.arrived ++ [job], waiting := s.waiting ++ [job] }
  | .start =>
      match s.waiting with
      | [] => none
      | job :: waiting =>
          some { s with
            started := s.started ++ [job]
            waiting := waiting
            serving := job ::ₘ s.serving }
  | .finish job =>
      if job ∈ s.serving then
        some { s with finished := s.finished ++ [job], serving := s.serving.erase job }
      else none

structure Ordered (s : Fifo τ) : Prop where
  arrived_eq : s.arrived = s.started ++ s.waiting
  arrived_nodup : s.arrived.Nodup
  started_eq : (s.started : Multiset τ) = s.serving + (s.finished : Multiset τ)

theorem ordered_init : Ordered (init : Fifo τ) := ⟨rfl, List.nodup_nil, rfl⟩

theorem Ordered.step [DecidableEq τ] {s t : Fifo τ} {e : Label τ} (h : Ordered s)
    (hs : step s e = some t) : Ordered t := by
  obtain ⟨harr, hnodup, hstart⟩ := h
  cases e with
  | arrive job =>
    simp only [Fifo.step] at hs
    split_ifs at hs with hnew
    cases hs
    refine ⟨by simp [harr], ?_, hstart⟩
    exact List.nodup_append.2 ⟨hnodup, List.nodup_singleton job, by
      rintro a ha b hb rfl
      rw [List.mem_singleton.1 hb] at ha
      exact hnew ha⟩
  | start =>
    cases hw : s.waiting with
    | nil => simp only [Fifo.step, hw] at hs; cases hs
    | cons job waiting =>
      simp only [Fifo.step, hw, Option.some.injEq] at hs
      subst hs
      refine ⟨by simp [harr, hw], hnodup, ?_⟩
      simp only [← Multiset.coe_add, hstart, Multiset.coe_singleton]
      rw [Multiset.add_comm, ← Multiset.singleton_add, Multiset.add_assoc]
  | finish job =>
    simp only [Fifo.step] at hs
    split_ifs at hs with hmem
    cases hs
    refine ⟨harr, hnodup, ?_⟩
    have hsplit : s.serving = {job} + s.serving.erase job := by
      rw [Multiset.singleton_add, Multiset.cons_erase hmem]
    simp only [← Multiset.coe_add, Multiset.coe_singleton]
    rw [hstart]
    nth_rewrite 1 [hsplit]
    rw [Multiset.add_comm {job}, Multiset.add_assoc, Multiset.add_comm {job}]

theorem ordered_of_reachable [DecidableEq τ] {s : Fifo τ} (h : Reachable step init s) : Ordered s :=
  invariant (fun _ _ _ hs hstep => hs.step hstep) ordered_init h

namespace Ordered

variable {s : Fifo τ}

/-- Jobs start in the order of their arrivals, and those that have not started are in line. -/
theorem started_prefix (h : Ordered s) : s.started <+: s.arrived :=
  ⟨s.waiting, h.arrived_eq.symm⟩

theorem started_nodup (h : Ordered s) : s.started.Nodup :=
  h.arrived_nodup.sublist h.started_prefix.sublist

theorem finished_nodup (h : Ordered s) : s.finished.Nodup := by
  have hle : (s.finished : Multiset τ) ≤ s.started := by
    rw [h.started_eq]; exact Multiset.le_add_left _ _
  exact Multiset.coe_nodup.1 (Multiset.nodup_of_le hle (Multiset.coe_nodup.2 h.started_nodup))

/-- Every arrival is waiting, in service or finished. -/
theorem length_arrived (h : Ordered s) :
    s.arrived.length = s.waiting.length + s.serving.card + s.finished.length := by
  have hcard := congrArg Multiset.card h.started_eq
  rw [Multiset.coe_card, Multiset.card_add, Multiset.coe_card] at hcard
  rw [h.arrived_eq, List.length_append]
  omega

theorem mem_started_iff (h : Ordered s) (job : τ) :
    job ∈ s.started ↔ job ∈ s.serving ∨ job ∈ s.finished := by
  rw [← Multiset.mem_coe, h.started_eq, Multiset.mem_add, Multiset.mem_coe]

/-- A job in service is not finished. -/
theorem notMem_finished (h : Ordered s) {job : τ} (hj : job ∈ s.serving) : job ∉ s.finished := by
  have hnodup := Multiset.coe_nodup.2 h.started_nodup
  rw [h.started_eq, Multiset.nodup_add] at hnodup
  exact fun hf => Multiset.disjoint_left.1 hnodup.2.2 hj hf

/-- A job in line has not started. -/
theorem notMem_started (h : Ordered s) {job : τ} (hj : job ∈ s.waiting) : job ∉ s.started := by
  have hnodup := h.arrived_nodup
  rw [h.arrived_eq] at hnodup
  exact fun hs => (List.nodup_append.1 hnodup).2.2 job hs job hj rfl

end Ordered

end Fifo
