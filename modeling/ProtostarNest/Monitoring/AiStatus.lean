import Mathlib.Data.List.Induction
import Mathlib.Data.Rat.Defs
import Mathlib.Order.Basic
import Mathlib.Algebra.Order.Ring.Unbundled.Rat
import ProtostarNest.Filter
import ProtostarNest.Lib.ScoredSet
import ProtostarNest.Lib.Transition

/-!
# `AiStatusMonitoringService` and `AiCircuitGuard`

The workers write their heartbeats into the sorted set `cluster:heartbeats`, with the time in
seconds as the score.  Each server asks the set every second whether a worker is alive, and the
guard turns chat requests away while none is.

* `Monitor`: the set, the flag `isAiAvailable`, and the synchronizations in flight, which may
  overlap;
* `step`: a heartbeat, the start of a synchronization, and its two commands, each of which may
  fail; a command that was given up on after its timeout may still be executed;
* `canActivate`: the guard;
* `step_cases`: what a label does;
* `Backed`, `available_of_run`: why the flag is set, when it is.

The clock is that of the last start of a synchronization.  Seconds are rational numbers: scores and
thresholds are exact where the code and Redis round to floating point numbers.
-/

namespace ProtostarNest.Monitoring

open Transition

/-- `Date.now() / 1000 - 5`, without the rounding. -/
def threshold (dateNow : ℕ) : ℚ := (dateNow : ℚ) / 1000 - 5

/-- A call of `syncStatus`: before `zremrangebyscore`, before `zcard`, and at its end. -/
inductive SyncPc
  | clean (threshold : ℚ)
  | count (threshold : ℚ)
  | done
  deriving DecidableEq

structure Monitor where
  heartbeats : ScoredSet String ℚ
  isAiAvailable : Bool
  syncs : List SyncPc
  overdue : List ℚ
  clock : ℕ
  deriving DecidableEq

/-- The server and Redis before `onModuleInit`. -/
def Monitor.boot : Monitor := ⟨Table.empty, false, [], [], 0⟩

/-- A worker's heartbeat; `onModuleInit` or the cron job calls `syncStatus`; the command that a
synchronization awaits is answered or fails; an overdue `zremrangebyscore` is executed; another
server's is. -/
inductive Event
  | beat (worker : String) (score : ℚ)
  | sync (dateNow : ℕ)
  | resume (i : ℕ) (ok : Bool)
  | late (k : ℕ)
  | peer (dateNow : ℕ)
  deriving DecidableEq

namespace Monitor

variable (s : Monitor)

/-- `zremrangebyscore('cluster:heartbeats', '-inf', threshold)`. -/
def clean (threshold : ℚ) : Monitor :=
  { s with heartbeats := ScoredSet.zremrangebyscore s.heartbeats threshold }

/-- The synchronization `i` is at `pc` now. -/
def setPc (i : ℕ) (pc : SyncPc) : Monitor := { s with syncs := s.syncs.set i pc }

/-- The synchronization `i` ends with the flag as it found it out to be. -/
def settle (i : ℕ) (newState : Bool) : Monitor :=
  { s.setPc i .done with
    isAiAvailable := if s.isAiAvailable ≠ newState then newState else s.isAiAvailable }

/-- The `catch` block. -/
def fail (i : ℕ) : Monitor := { s.setPc i .done with isAiAvailable := false }

end Monitor

def step (s : Monitor) : Event → Option Monitor
  | .beat worker score =>
      some { s with heartbeats := ScoredSet.zadd s.heartbeats worker score }
  | .sync dateNow =>
      some { s with syncs := s.syncs ++ [.clean (threshold dateNow)], clock := dateNow }
  | .resume i ok =>
      match s.syncs[i]? with
      | some (.clean threshold) =>
          if ok then some ((s.clean threshold).setPc i (.count threshold))
          else some { s.fail i with overdue := threshold :: s.overdue }
      | some (.count _) =>
          if ok then some (s.settle i (0 < ScoredSet.zcard s.heartbeats)) else some (s.fail i)
      | _ => none
  | .late k =>
      match s.overdue[k]? with
      | some threshold => some { s.clean threshold with overdue := s.overdue.eraseIdx k }
      | none => none
  | .peer dateNow => some (s.clean (threshold dateNow))

/-- `AiStatusMonitoringService.isAvailable`. -/
def isAvailable (s : Monitor) : Bool := s.isAiAvailable

/-- `AiCircuitGuard.canActivate`. -/
def canActivate (s : Monitor) : Except Thrown Bool :=
  if isAvailable s = false then
    .error (.HttpException SERVICE_UNAVAILABLE "AI Service is Currently Unavailable.")
  else .ok true

/-! ### Inversion -/

/-- A step at which a synchronization ends. -/
def Ends (s : Monitor) : Event → Prop
  | .resume i ok => ok = false ∨ ∃ threshold, s.syncs[i]? = some (.count threshold)
  | _ => False

section Inversion

variable {s s' : Monitor} {e : Event}

@[simp] theorem settle_isAiAvailable (i : ℕ) (newState : Bool) :
    (s.settle i newState).isAiAvailable = newState := by
  unfold Monitor.settle
  split_ifs with h
  · rfl
  · exact not_not.1 h

/-- Everything that one label can do. -/
theorem step_cases (h : step s e = some s') :
    (∃ worker score, e = .beat worker score ∧
      s' = { s with heartbeats := ScoredSet.zadd s.heartbeats worker score }) ∨
    (∃ dateNow, e = .sync dateNow ∧
      s' = { s with syncs := s.syncs ++ [.clean (threshold dateNow)], clock := dateNow }) ∨
    (∃ i th, e = .resume i true ∧ s.syncs[i]? = some (.clean th) ∧
      s' = (s.clean th).setPc i (.count th)) ∨
    (∃ i th, e = .resume i false ∧ s.syncs[i]? = some (.clean th) ∧
      s' = { s.fail i with overdue := th :: s.overdue }) ∨
    (∃ i th, e = .resume i true ∧ s.syncs[i]? = some (.count th) ∧
      s' = s.settle i (0 < ScoredSet.zcard s.heartbeats)) ∨
    (∃ i th, e = .resume i false ∧ s.syncs[i]? = some (.count th) ∧ s' = s.fail i) ∨
    (∃ k th, e = .late k ∧ s.overdue[k]? = some th ∧
      s' = { s.clean th with overdue := s.overdue.eraseIdx k }) ∨
    ∃ dateNow, e = .peer dateNow ∧ s' = s.clean (threshold dateNow) := by
  cases e with
  | beat worker score => exact Or.inl ⟨worker, score, rfl, (Option.some.inj h).symm⟩
  | sync dateNow => exact Or.inr (Or.inl ⟨dateNow, rfl, (Option.some.inj h).symm⟩)
  | resume i ok =>
    simp only [step] at h
    split at h
    · rename_i th hi
      cases ok with
      | true => exact Or.inr (Or.inr (Or.inl ⟨i, th, rfl, hi, (Option.some.inj h).symm⟩))
      | false =>
        exact Or.inr (Or.inr (Or.inr (Or.inl ⟨i, th, rfl, hi, (Option.some.inj h).symm⟩)))
    · rename_i th hi
      cases ok with
      | true =>
        exact Or.inr (Or.inr (Or.inr (Or.inr (Or.inl ⟨i, th, rfl, hi, (Option.some.inj h).symm⟩))))
      | false =>
        exact Or.inr (Or.inr (Or.inr (Or.inr (Or.inr (Or.inl
          ⟨i, th, rfl, hi, (Option.some.inj h).symm⟩)))))
    · cases h
  | late k =>
    simp only [step] at h
    split at h
    · rename_i th hk
      exact Or.inr (Or.inr (Or.inr (Or.inr (Or.inr (Or.inr (Or.inl
        ⟨k, th, rfl, hk, (Option.some.inj h).symm⟩))))))
    · cases h
  | peer dateNow =>
    exact Or.inr (Or.inr (Or.inr (Or.inr (Or.inr (Or.inr (Or.inr
      ⟨dateNow, rfl, (Option.some.inj h).symm⟩))))))

/-- The flag is set by a synchronization that counts somebody, and kept by the steps at which none
ends. -/
theorem available_cases (h : step s e = some s') (hs' : s'.isAiAvailable = true) :
    (s.isAiAvailable = true ∧ ¬ Ends s e) ∨
      ∃ i th, e = .resume i true ∧ s.syncs[i]? = some (.count th) ∧
        0 < ScoredSet.zcard s.heartbeats := by
  rcases step_cases h with ⟨worker, score, rfl, rfl⟩ | ⟨dateNow, rfl, rfl⟩ | ⟨i, th, rfl, hi, rfl⟩ |
    ⟨i, th, rfl, hi, rfl⟩ | ⟨i, th, rfl, hi, rfl⟩ | ⟨i, th, rfl, hi, rfl⟩ | ⟨k, th, rfl, hk, rfl⟩ |
    ⟨dateNow, rfl, rfl⟩
  · exact Or.inl ⟨hs', id⟩
  · exact Or.inl ⟨hs', id⟩
  · refine Or.inl ⟨hs', ?_⟩
    rintro (hok | ⟨th', hi'⟩)
    · cases hok
    · rw [hi] at hi'
      cases hi'
  · cases hs'
  · rw [settle_isAiAvailable, decide_eq_true_iff] at hs'
    exact Or.inr ⟨i, th, rfl, hi, hs'⟩
  · cases hs'
  · exact Or.inl ⟨hs', id⟩
  · exact Or.inl ⟨hs', id⟩

/-- Where a synchronization in flight comes from. -/
theorem syncs_cases (h : step s e = some s') {j : ℕ} {pc : SyncPc} (hj : s'.syncs[j]? = some pc) :
    s.syncs[j]? = some pc ∨ pc = .done ∨
      (∃ dateNow, e = .sync dateNow ∧ pc = .clean (threshold dateNow)) ∨
      ∃ th, e = .resume j true ∧ s.syncs[j]? = some (.clean th) ∧ pc = .count th ∧
        s' = (s.clean th).setPc j (.count th) := by
  have hset : ∀ {i : ℕ} {pc' : SyncPc}, (s.syncs.set i pc')[j]? = some pc →
      (j = i ∧ pc = pc') ∨ s.syncs[j]? = some pc := by
    intro i pc' hget
    by_cases hij : i = j
    · subst hij
      rw [List.getElem?_set_self'] at hget
      obtain ⟨-, -, rfl⟩ := Option.map_eq_some_iff.1 hget
      exact Or.inl ⟨rfl, rfl⟩
    · rw [List.getElem?_set_ne hij] at hget
      exact Or.inr hget
  rcases step_cases h with ⟨worker, score, rfl, rfl⟩ | ⟨dateNow, rfl, rfl⟩ | ⟨i, th, rfl, hi, rfl⟩ |
    ⟨i, th, rfl, hi, rfl⟩ | ⟨i, th, rfl, hi, rfl⟩ | ⟨i, th, rfl, hi, rfl⟩ | ⟨k, th, rfl, hk, rfl⟩ |
    ⟨dateNow, rfl, rfl⟩
  · exact Or.inl hj
  · by_cases hlt : j < s.syncs.length
    · rw [List.getElem?_append_left hlt] at hj
      exact Or.inl hj
    · rw [List.getElem?_append_right (Nat.not_lt.1 hlt)] at hj
      obtain rfl := List.mem_singleton.1 (List.mem_of_getElem? hj)
      exact Or.inr (Or.inr (Or.inl ⟨dateNow, rfl, rfl⟩))
  · rcases hset hj with ⟨rfl, rfl⟩ | hold
    · exact Or.inr (Or.inr (Or.inr ⟨th, rfl, hi, rfl, rfl⟩))
    · exact Or.inl hold
  · rcases hset hj with ⟨rfl, rfl⟩ | hold
    · exact Or.inr (Or.inl rfl)
    · exact Or.inl hold
  · rcases hset hj with ⟨rfl, rfl⟩ | hold
    · exact Or.inr (Or.inl rfl)
    · exact Or.inl hold
  · rcases hset hj with ⟨rfl, rfl⟩ | hold
    · exact Or.inr (Or.inl rfl)
    · exact Or.inl hold
  · exact Or.inl hj
  · exact Or.inl hj

/-- A member of the set was there before, or this is its heartbeat. -/
theorem heartbeats_cases (h : step s e = some s') {r : String × ℚ}
    (hr : r ∈ s'.heartbeats.rows) : r ∈ s.heartbeats.rows ∨ e = .beat r.1 r.2 := by
  rcases step_cases h with ⟨worker, score, rfl, rfl⟩ | ⟨dateNow, rfl, rfl⟩ | ⟨i, th, rfl, hi, rfl⟩ |
    ⟨i, th, rfl, hi, rfl⟩ | ⟨i, th, rfl, hi, rfl⟩ | ⟨i, th, rfl, hi, rfl⟩ | ⟨k, th, rfl, hk, rfl⟩ |
    ⟨dateNow, rfl, rfl⟩
  · rcases ScoredSet.mem_zadd.1 hr with rfl | ⟨hr, -⟩
    · exact Or.inr rfl
    · exact Or.inl hr
  · exact Or.inl hr
  · exact Or.inl (ScoredSet.mem_zremrangebyscore.1 hr).1
  · exact Or.inl hr
  · exact Or.inl hr
  · exact Or.inl hr
  · exact Or.inl (ScoredSet.mem_zremrangebyscore.1 hr).1
  · exact Or.inl (ScoredSet.mem_zremrangebyscore.1 hr).1

end Inversion

/-! ### Why the flag is set -/

/-- The flag was last written by a synchronization `i` that began at `dateNow`, removed what was too
old after the steps `pre`, and after the steps `mid` counted a worker whose heartbeat is less than
5 s older than `dateNow` or has come among `mid`. -/
def Backed (es : List Event) : Prop :=
  ∃ (pre mid post : List Event) (i dateNow : ℕ) (u v : Monitor) (worker : String) (score : ℚ),
    es = pre ++ .resume i true :: mid ++ .resume i true :: post ∧ .sync dateNow ∈ pre ∧
      run step Monitor.boot (pre ++ .resume i true :: mid) = some u ∧
      (worker, score) ∈ u.heartbeats.rows ∧
      ((dateNow : ℚ) / 1000 - 5 < score ∨ .beat worker score ∈ mid) ∧
      step u (.resume i true) = some v ∧ Meets step (fun s e => ¬ Ends s e) v post

section Run

variable {s : Monitor} {es : List Event} {i : ℕ} {th : ℚ}

theorem cleaning_of_run (h : run step Monitor.boot es = some s)
    (hi : s.syncs[i]? = some (.clean th)) :
    ∃ dateNow, .sync dateNow ∈ es ∧ th = threshold dateNow := by
  induction es using List.reverseRecOn generalizing s with
  | nil => cases h; cases hi
  | append_singleton es e ih =>
    obtain ⟨u, hu, hv⟩ := (run_concat_eq_some step).1 h
    rcases syncs_cases hv hi with hold | hdone | ⟨dateNow, rfl, hpc⟩ | ⟨th', rfl, -, hpc, -⟩
    · obtain ⟨dateNow, hmem, heq⟩ := ih hu hold
      exact ⟨dateNow, List.mem_append_left _ hmem, heq⟩
    · cases hdone
    · cases hpc
      exact ⟨dateNow, by simp, rfl⟩
    · cases hpc

/-- A synchronization that is about to count has removed the old heartbeats; those that are there
are younger, or have come since. -/
theorem counting_of_run (h : run step Monitor.boot es = some s)
    (hi : s.syncs[i]? = some (.count th)) :
    ∃ pre mid dateNow, es = pre ++ .resume i true :: mid ∧ .sync dateNow ∈ pre ∧
      th = threshold dateNow ∧ ∀ r ∈ s.heartbeats.rows, th < r.2 ∨ .beat r.1 r.2 ∈ mid := by
  induction es using List.reverseRecOn generalizing s with
  | nil => cases h; cases hi
  | append_singleton es e ih =>
    obtain ⟨u, hu, hv⟩ := (run_concat_eq_some step).1 h
    rcases syncs_cases hv hi with hold | hdone | ⟨dateNow, rfl, hpc⟩ | ⟨th', rfl, hclean, hpc, rfl⟩
    · obtain ⟨pre, mid, dateNow, rfl, hsync, hth, hrows⟩ := ih hu hold
      refine ⟨pre, mid ++ [e], dateNow, by simp, hsync, hth, fun r hr => ?_⟩
      rcases heartbeats_cases hv hr with hr | rfl
      · exact (hrows r hr).imp_right (List.mem_append_left _)
      · exact Or.inr (by simp)
    · cases hdone
    · cases hpc
    · cases hpc
      obtain ⟨dateNow, hsync, heq⟩ := cleaning_of_run hu hclean
      exact ⟨es, [], dateNow, rfl, hsync, heq, fun r hr =>
        Or.inl (ScoredSet.mem_zremrangebyscore.1 hr).2⟩

theorem Backed.of_run (h : run step Monitor.boot es = some s) (hs : isAvailable s = true) :
    Backed es := by
  induction es using List.reverseRecOn generalizing s with
  | nil => cases h; cases hs
  | append_singleton es e ih =>
    obtain ⟨u, hu, hv⟩ := (run_concat_eq_some step).1 h
    rcases available_cases hv hs with ⟨hu', hends⟩ | ⟨i, th, rfl, hi, hcard⟩
    · obtain ⟨pre, mid, post, i, dateNow, u', v', worker, score, rfl, hsync, hpre, hmem, hbeat,
        hstep, hmeets⟩ := ih hu hu'
      refine ⟨pre, mid, post ++ [e], i, dateNow, u', v', worker, score, by simp, hsync, hpre, hmem,
        hbeat, hstep, ?_⟩
      obtain ⟨u₁, hu₁, hpost⟩ := (run_append_eq_some step).1 hu
      rw [hpre] at hu₁
      cases hu₁
      obtain ⟨v₁, hv₁, hpost⟩ := (run_cons_eq_some step).1 hpost
      rw [hstep] at hv₁
      cases hv₁
      exact hmeets.concat hpost hends
    · obtain ⟨⟨worker, score⟩, hmem⟩ := ScoredSet.zcard_pos.1 hcard
      obtain ⟨pre, mid, dateNow, rfl, hsync, rfl, hrows⟩ := counting_of_run hu hi
      exact ⟨pre, mid, [], i, dateNow, u, s, worker, score, rfl, hsync, hu, hmem, hrows _ hmem, hv,
        trivial⟩

end Run

/-- A worker that has beaten, and a synchronization that a second one overlaps. -/
def overlapRun : List Event :=
  [.beat "worker-1" 100, .sync 101000, .resume 0 true, .sync 102000, .resume 0 true]

end ProtostarNest.Monitoring
