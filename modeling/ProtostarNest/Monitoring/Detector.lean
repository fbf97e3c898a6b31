import Mathlib.Algebra.Order.Archimedean.Basic
import Mathlib.Data.Rat.Floor
import Mathlib.Tactic.Linarith
import ProtostarNest.Lib.Execution
import ProtostarNest.Monitoring.AiStatus

/-!
# The flag as a failure detector

What `isAiAvailable` says about the workers in the long run, with overlapping synchronizations and
the cleanups of other servers.

* `InTime`: the worker's heartbeats arrive in time, and clocks run forward;
* `Attended`: the invariant behind it: nobody removes the worker;
* `kept_of_inTime`: the flag is only cleared by a command that fails;
* `Fair`: synchronizations keep starting, and each one that waits for Redis moves on;
* `outage_noticed`, `recovery_noticed`: without a heartbeat the flag is off in the end, with a
  worker in time it is on, as soon as the commands succeed.
-/

namespace ProtostarNest.Monitoring

open Transition

/-! ### A worker in time -/

/-- The worker's last heartbeat is less than five seconds older than the clock. -/
def Alive (worker : String) (s : Monitor) : Prop :=
  ∃ r ∈ s.heartbeats.rows, r.1 = worker ∧ (s.clock : ℚ) / 1000 - 5 < r.2

/-- The clock does not go back, no other server's is ahead, and the worker's heartbeat is never five
seconds old: not when it comes, nor when a synchronization starts. -/
def InTime (worker : String) (s : Monitor) : Event → Prop
  | .beat w score => w = worker → (s.clock : ℚ) / 1000 - 5 < score
  | .sync dateNow => s.clock ≤ dateNow ∧
      ∃ r ∈ s.heartbeats.rows, r.1 = worker ∧ (dateNow : ℚ) / 1000 - 5 < r.2
  | .peer dateNow => dateNow ≤ s.clock
  | _ => True

instance (worker : String) (s : Monitor) : (e : Event) → Decidable (InTime worker s e)
  | .beat w score =>
      inferInstanceAs (Decidable (w = worker → (s.clock : ℚ) / 1000 - 5 < score))
  | .sync dateNow => inferInstanceAs (Decidable (s.clock ≤ dateNow ∧
      ∃ r ∈ s.heartbeats.rows, r.1 = worker ∧ (dateNow : ℚ) / 1000 - 5 < r.2))
  | .peer dateNow => inferInstanceAs (Decidable (dateNow ≤ s.clock))
  | .resume _ _ => instDecidableTrue
  | .late _ => instDecidableTrue

/-- A command that fails. -/
def Fails : Event → Prop
  | .resume _ ok => ok = false
  | _ => False

/-- The cleanups to come remove nothing that is less than five seconds old. -/
structure Bounded (s : Monitor) : Prop where
  clean : ∀ (j : ℕ) (th : ℚ), s.syncs[j]? = some (SyncPc.clean th) → th ≤ threshold s.clock
  overdue : ∀ th ∈ s.overdue, th ≤ threshold s.clock

/-- Nobody will remove the worker. -/
structure Attended (worker : String) (s : Monitor) : Prop where
  bounded : Bounded s
  alive : Alive worker s

theorem threshold_le {m n : ℕ} (h : m ≤ n) : threshold m ≤ threshold n := by
  have hcast : (m : ℚ) ≤ n := by exact_mod_cast h
  unfold threshold
  linarith

section Step

variable {s s' : Monitor} {e : Event} {worker : String}

/-- A cleanup up to an old threshold leaves the worker. -/
theorem Alive.clean (h : Alive worker s) {th : ℚ} (hth : th ≤ threshold s.clock) :
    Alive worker (s.clean th) := by
  obtain ⟨r, hr, hworker, hlt⟩ := h
  exact ⟨r, ScoredSet.mem_zremrangebyscore.2 ⟨hr, lt_of_le_of_lt hth hlt⟩, hworker, hlt⟩

theorem Bounded.step (hs : Bounded s) (hforward : ∀ dateNow, e = .sync dateNow → s.clock ≤ dateNow)
    (h : step s e = some s') : Bounded s' := by
  -- thresholds stay, and the clock does not fall
  have hclock : threshold s.clock ≤ threshold s'.clock := by
    rcases step_cases h with ⟨_, _, rfl, rfl⟩ | ⟨dateNow, rfl, rfl⟩ | ⟨_, _, rfl, -, rfl⟩ |
      ⟨_, _, rfl, -, rfl⟩ | ⟨_, _, rfl, -, rfl⟩ | ⟨_, _, rfl, -, rfl⟩ | ⟨_, _, rfl, -, rfl⟩ |
      ⟨_, rfl, rfl⟩
    case inr.inl => exact threshold_le (hforward dateNow rfl)
    all_goals exact le_refl _
  refine ⟨fun j th hj => ?_, fun th hth => ?_⟩
  · rcases syncs_cases h hj with hold | hdone | ⟨dateNow, rfl, hpc⟩ | ⟨th', rfl, -, hpc, -⟩
    · exact (hs.clean j th hold).trans hclock
    · cases hdone
    · cases hpc
      obtain rfl := Option.some.inj h
      exact le_refl _
    · cases hpc
  · rcases step_cases h with ⟨_, _, rfl, rfl⟩ | ⟨dateNow, rfl, rfl⟩ | ⟨_, _, rfl, -, rfl⟩ |
      ⟨i, th', rfl, hi, rfl⟩ | ⟨_, _, rfl, -, rfl⟩ | ⟨_, _, rfl, -, rfl⟩ | ⟨k, _, rfl, -, rfl⟩ |
      ⟨_, rfl, rfl⟩
    · exact hs.overdue th hth
    · exact (hs.overdue th hth).trans hclock
    · exact hs.overdue th hth
    · rcases List.mem_cons.1 hth with rfl | hth
      · exact hs.clean i th hi
      · exact hs.overdue th hth
    · exact hs.overdue th hth
    · exact hs.overdue th hth
    · exact hs.overdue th (List.mem_of_mem_eraseIdx hth)
    · exact hs.overdue th hth

theorem Attended.step (hs : Attended worker s) (hin : InTime worker s e)
    (h : step s e = some s') : Attended worker s' := by
  refine ⟨hs.bounded.step (fun dateNow he => ?_) h, ?_⟩
  · subst he
    exact hin.1
  · obtain ⟨r, hr, hworker, hlt⟩ := hs.alive
    rcases step_cases h with ⟨w, score, rfl, rfl⟩ | ⟨dateNow, rfl, rfl⟩ | ⟨i, th, rfl, hi, rfl⟩ |
      ⟨i, th, rfl, hi, rfl⟩ | ⟨i, th, rfl, hi, rfl⟩ | ⟨i, th, rfl, hi, rfl⟩ |
      ⟨k, th, rfl, hk, rfl⟩ | ⟨dateNow, rfl, rfl⟩
    · by_cases hw : w = worker
      · exact ⟨(w, score), ScoredSet.mem_zadd.2 (Or.inl rfl), hw, hin hw⟩
      · exact ⟨r, ScoredSet.mem_zadd.2 (Or.inr ⟨hr, fun heq => hw (heq.symm.trans hworker)⟩),
          hworker, hlt⟩
    · exact hin.2
    · exact hs.alive.clean (hs.bounded.clean i th hi)
    · exact hs.alive
    · exact hs.alive
    · exact hs.alive
    · exact hs.alive.clean (hs.bounded.overdue th (List.mem_of_getElem? hk))
    · exact hs.alive.clean (threshold_le hin)

/-- With an attended worker a synchronization that ends well sets the flag, and only a command that
fails clears it. -/
theorem Attended.available (hs : Attended worker s) (hok : ¬ Fails e)
    (h : Monitoring.step s e = some s') :
    (s'.isAiAvailable = s.isAiAvailable ∧ ¬ Ends s e) ∨ s'.isAiAvailable = true := by
  have hcard : 0 < ScoredSet.zcard s.heartbeats := by
    obtain ⟨r, hr, -⟩ := hs.alive
    exact ScoredSet.zcard_pos.2 ⟨r, hr⟩
  rcases step_cases h with ⟨w, score, rfl, rfl⟩ | ⟨dateNow, rfl, rfl⟩ | ⟨i, th, rfl, hi, rfl⟩ |
    ⟨i, th, rfl, hi, rfl⟩ | ⟨i, th, rfl, hi, rfl⟩ | ⟨i, th, rfl, hi, rfl⟩ |
    ⟨k, th, rfl, hk, rfl⟩ | ⟨dateNow, rfl, rfl⟩
  · exact Or.inl ⟨rfl, id⟩
  · exact Or.inl ⟨rfl, id⟩
  · refine Or.inl ⟨rfl, ?_⟩
    rintro (hfail | ⟨th', hi'⟩)
    · cases hfail
    · rw [hi] at hi'
      cases hi'
  · exact absurd rfl hok
  · exact Or.inr (by rw [settle_isAiAvailable, decide_eq_true hcard])
  · exact absurd rfl hok
  · exact Or.inl ⟨rfl, id⟩
  · exact Or.inl ⟨rfl, id⟩

end Step

/-! ### No false alarms -/

/-- The clock does not go back. -/
def ClockForward (s : Monitor) : Event → Prop
  | .sync dateNow => s.clock ≤ dateNow
  | _ => True

instance (s : Monitor) : (e : Event) → Decidable (ClockForward s e)
  | .sync dateNow => inferInstanceAs (Decidable (s.clock ≤ dateNow))
  | .beat _ _ => instDecidableTrue
  | .peer _ => instDecidableTrue
  | .resume _ _ => instDecidableTrue
  | .late _ => instDecidableTrue

theorem bounded_boot : Bounded Monitor.boot where
  clean := fun _ _ h => by cases h
  overdue := fun _ h => absurd h List.not_mem_nil

theorem Bounded.step_of_clockForward {s s' : Monitor} {e : Event} (hs : Bounded s)
    (hforward : ClockForward s e) (h : Monitoring.step s e = some s') : Bounded s' :=
  hs.step (fun dateNow he => by subst he; exact hforward) h

/-- A worker that beats once a second, with a synchronization after each heartbeat. -/
def beatingRun : List Event :=
  [.sync 101000, .resume 0 true, .resume 0 true, .beat "worker-1" 101, .sync 102000,
    .resume 1 true, .peer 102000, .resume 1 true]

/-- Synchronizations keep starting, at times beyond every bound, and none that can move on is left
alone. -/
structure Fair (x : Execution step) : Prop where
  resumed : ∀ i, x.WeaklyFair fun e => ∃ ok, e = .resume i ok
  ticks : ∀ n t, ∃ m dateNow, n ≤ m ∧ t ≤ dateNow ∧ x.label m = some (.sync dateNow)

/-- A worker's heartbeat. -/
def Beats : Event → Prop
  | .beat _ _ => True
  | _ => False

section Executions

variable {x : Execution Monitoring.step} {s s' : Monitor} {e : Event} {i n : ℕ} {pc : SyncPc}

theorem Fair.drop (h : Fair x) (n : ℕ) : Fair (x.drop n) := by
  refine ⟨fun i => (h.resumed i).drop n, fun m t => ?_⟩
  obtain ⟨k, dateNow, hk, ht, hlabel⟩ := h.ticks (n + m) t
  obtain ⟨j, rfl⟩ := Nat.exists_eq_add_of_le (show n ≤ k by omega)
  exact ⟨j, dateNow, by omega, ht, hlabel⟩

/-- A synchronization waits while others move. -/
theorem syncs_of_ne (h : step s e = some s') (he : ¬ ∃ ok, e = .resume i ok)
    (hi : s.syncs[i]? = some pc) : s'.syncs[i]? = some pc := by
  have hset : ∀ {j : ℕ} {ok : Bool} (pc' : SyncPc), e = .resume j ok →
      (s.syncs.set j pc')[i]? = some pc := by
    rintro j ok pc' rfl
    rw [List.getElem?_set_ne fun hji => he ⟨ok, by rw [hji]⟩]
    exact hi
  rcases step_cases h with ⟨w, score, rfl, rfl⟩ | ⟨dateNow, rfl, rfl⟩ | ⟨j, th, rfl, hj, rfl⟩ |
    ⟨j, th, rfl, hj, rfl⟩ | ⟨j, th, rfl, hj, rfl⟩ | ⟨j, th, rfl, hj, rfl⟩ |
    ⟨k, th, rfl, hk, rfl⟩ | ⟨dateNow, rfl, rfl⟩
  · exact hi
  · show (s.syncs ++ _)[i]? = some pc
    rw [List.getElem?_append_left (List.getElem?_eq_some_iff.1 hi).1]
    exact hi
  · exact hset _ rfl
  · exact hset _ rfl
  · exact hset _ rfl
  · exact hset _ rfl
  · exact hi
  · exact hi

/-- A synchronization in flight can move on. -/
theorem enabled_of_inFlight (hi : s.syncs[i]? = some pc) (hpc : pc ≠ .done) :
    Enabled step (fun e => ∃ ok, e = .resume i ok) s := by
  refine ⟨.resume i true, ?_⟩
  cases pc with
  | clean th => exact ⟨_, ⟨true, rfl⟩, by simp only [step, hi]; rfl⟩
  | count th => exact ⟨_, ⟨true, rfl⟩, by simp only [step, hi]; rfl⟩
  | done => exact absurd rfl hpc

/-- A synchronization in flight makes its next step. -/
theorem exists_resume (hfair : Fair x) (hi : (x.state n).syncs[i]? = some pc) (hpc : pc ≠ .done) :
    ∃ m ok, n ≤ m ∧ x.label m = some (.resume i ok) ∧ (x.state m).syncs[i]? = some pc := by
  obtain ⟨m, e, hm, ⟨ok, rfl⟩, hlabel, hm'⟩ := (hfair.resumed i).exists_step
    (P := fun s => s.syncs[i]? = some pc) (fun s e t hs he hstep => syncs_of_ne hstep he hs) hi
    ⟨n, Nat.le_refl n, fun m _ hm => enabled_of_inFlight hm hpc⟩
  exact ⟨m, ok, hm, hlabel, hm'⟩

/-- Each synchronization ends. -/
theorem exists_end (hfair : Fair x) (hi : (x.state n).syncs[i]? = some pc) (hpc : pc ≠ .done) :
    ∃ m ok, n ≤ m ∧ x.label m = some (.resume i ok) ∧ Ends (x.state m) (.resume i ok) := by
  obtain ⟨m, ok, hm, hlabel, hm'⟩ := exists_resume hfair hi hpc
  cases pc with
  | done => exact absurd rfl hpc
  | count th => exact ⟨m, ok, hm, hlabel, Or.inr ⟨th, hm'⟩⟩
  | clean th =>
    cases ok with
    | false => exact ⟨m, false, hm, hlabel, Or.inl rfl⟩
    | true =>
      have hnext := x.next m _ hlabel
      simp only [step, hm', if_true, Option.some.injEq] at hnext
      have hcount : (x.state (m + 1)).syncs[i]? = some (.count th) := by
        rw [← hnext]
        exact List.getElem?_set_self (List.getElem?_eq_some_iff.1 hm').1
      obtain ⟨m', ok', hle, hlabel', hm''⟩ := exists_resume hfair hcount (by simp)
      exact ⟨m', ok', by omega, hlabel', Or.inr ⟨th, hm''⟩⟩

/-- At its end a synchronization is done. -/
theorem done_of_ends {ok : Bool} (h : step s (.resume i ok) = some s')
    (hends : Ends s (.resume i ok)) : s'.syncs[i]? = some .done := by
  have hlt : i < s.syncs.length := by
    simp only [step] at h
    split at h
    · rename_i hi; exact (List.getElem?_eq_some_iff.1 hi).1
    · rename_i hi; exact (List.getElem?_eq_some_iff.1 hi).1
    · cases h
  rcases step_cases h with ⟨_, _, he, -⟩ | ⟨_, he, -⟩ | ⟨j, th, he, hj, rfl⟩ |
    ⟨j, th, he, hj, rfl⟩ | ⟨j, th, he, hj, rfl⟩ | ⟨j, th, he, hj, rfl⟩ |
    ⟨_, _, he, -⟩ | ⟨_, he, -⟩ <;> cases he
  · rcases hends with hfail | ⟨th', hi⟩
    · cases hfail
    · rw [hj] at hi
      cases hi
  · exact List.getElem?_set_self hlt
  · exact List.getElem?_set_self hlt
  · exact List.getElem?_set_self hlt

/-- What is done stays done. -/
theorem done_of_step (h : step s e = some s') (hi : s.syncs[i]? = some .done) :
    s'.syncs[i]? = some .done := by
  refine syncs_of_ne h ?_ hi
  rintro ⟨ok, rfl⟩
  simp only [step, hi] at h
  cases h

/-- A synchronization that starts later than `n` ends later than `n`. -/
theorem exists_later_end (hfair : Fair x) (n t : ℕ) :
    ∃ m i ok, n ≤ m ∧ x.label m = some (.resume i ok) ∧ Ends (x.state m) (.resume i ok) := by
  obtain ⟨k, dateNow, hk, -, hlabel⟩ := hfair.ticks n t
  have hnext := x.next k _ hlabel
  have hi : (x.state (k + 1)).syncs[(x.state k).syncs.length]? =
      some (.clean (threshold dateNow)) := by
    rw [← Option.some.inj hnext]
    exact List.getElem?_concat_length
  obtain ⟨m, ok, hm, hlabel', hends⟩ := exists_end hfair hi (by simp)
  exact ⟨m, _, ok, by omega, hlabel', hends⟩

/-- No heartbeat is younger than five seconds before `t`. -/
def Silent (t : ℕ) (s : Monitor) : Prop := ∀ r ∈ s.heartbeats.rows, r.2 ≤ threshold t

/-- The synchronizations from number `l` on have begun after `t`: those that are about to count have
left nobody in the set. -/
structure Outage (t l : ℕ) (s : Monitor) : Prop where
  silent : Silent t s
  clock : t ≤ s.clock
  length : l ≤ s.syncs.length
  clean : ∀ (j : ℕ) (th : ℚ), l ≤ j → s.syncs[j]? = some (SyncPc.clean th) → threshold t ≤ th
  count : ∀ (j : ℕ) (th : ℚ), l ≤ j → s.syncs[j]? = some (SyncPc.count th) →
    s.heartbeats.rows = []

theorem rows_of_not_beats (h : step s e = some s') (he : ¬ Beats e) :
    s'.heartbeats.rows ⊆ s.heartbeats.rows := by
  intro r hr
  refine (heartbeats_cases h hr).resolve_right ?_
  rintro rfl
  exact he trivial

theorem exists_silent (s : Monitor) : ∃ t, Silent t s := by
  unfold Silent
  generalize s.heartbeats.rows = rows
  induction rows with
  | nil => exact ⟨0, by simp⟩
  | cons r rows ih =>
    obtain ⟨t, ht⟩ := ih
    obtain ⟨u, hu⟩ := exists_nat_ge (1000 * (r.2 + 5))
    refine ⟨max t u, fun r' hr' => ?_⟩
    rcases List.mem_cons.1 hr' with rfl | hr'
    · have hle : r'.2 ≤ threshold u := by unfold threshold; linarith
      exact hle.trans (threshold_le (le_max_right t u))
    · exact (ht r' hr').trans (threshold_le (le_max_left t u))

theorem Outage.step {t l : ℕ} (hs : Outage t l s) (hbeat : ¬ Beats e) (hforward : ClockForward s e)
    (h : Monitoring.step s e = some s') : Outage t l s' := by
  have hrows := rows_of_not_beats h hbeat
  have hempty : s.heartbeats.rows = [] → s'.heartbeats.rows = [] := by
    intro hnil
    rw [hnil] at hrows
    exact List.subset_nil.1 hrows
  have hlen : s.syncs.length ≤ s'.syncs.length ∧ s.clock ≤ s'.clock := by
    rcases step_cases h with ⟨_, _, rfl, rfl⟩ | ⟨dateNow, rfl, rfl⟩ | ⟨_, _, rfl, -, rfl⟩ |
      ⟨_, _, rfl, -, rfl⟩ | ⟨_, _, rfl, -, rfl⟩ | ⟨_, _, rfl, -, rfl⟩ | ⟨_, _, rfl, -, rfl⟩ |
      ⟨_, rfl, rfl⟩
    case inr.inl => exact ⟨by simp, hforward⟩
    all_goals simp [Monitor.setPc, Monitor.clean, Monitor.fail, Monitor.settle]
  refine ⟨fun r hr => hs.silent r (hrows hr), hs.clock.trans hlen.2, hs.length.trans hlen.1,
    fun j th hj hget => ?_, fun j th hj hget => ?_⟩
  · rcases syncs_cases h hget with hold | hdone | ⟨dateNow, rfl, hpc⟩ | ⟨th', rfl, -, hpc, -⟩
    · exact hs.clean j th hj hold
    · cases hdone
    · cases hpc
      exact threshold_le (hs.clock.trans hforward)
    · cases hpc
  · rcases syncs_cases h hget with hold | hdone | ⟨dateNow, rfl, hpc⟩ | ⟨th', rfl, hi, hpc, rfl⟩
    · exact hempty (hs.count j th hj hold)
    · cases hdone
    · cases hpc
    · cases hpc
      -- its own cleanup leaves nobody
      refine List.length_eq_zero_iff.1 (ScoredSet.zcard_zremrangebyscore_of_le fun r hr => ?_)
      exact (hs.silent r hr).trans (hs.clean j th hj hi)

/-- When only new synchronizations are in flight, the flag is cleared at each end and never set. -/
theorem Outage.available {t l : ℕ} (hs : Outage t l s) (hold : ∀ j < l, s.syncs[j]? = some .done)
    (h : Monitoring.step s e = some s') (hset : isAvailable s' = true) :
    isAvailable s = true ∧ ¬ Ends s e := by
  rcases available_cases h hset with hkept | ⟨i, th, rfl, hi, hcard⟩
  · exact hkept
  · have hle : l ≤ i := by
      by_contra hlt
      rw [hold i (Nat.not_le.1 hlt)] at hi
      cases hi
    obtain ⟨r, hr⟩ := ScoredSet.zcard_pos.1 hcard
    rw [hs.count i th hle hi] at hr
    cases hr

/-- Without heartbeats there is a time from which on all synchronizations in flight began long after
the last heartbeat. -/
theorem exists_outage (hfair : Fair x) (hquiet : x.Meets fun s e => ¬ Beats e ∧ ClockForward s e) :
    ∃ t l N, ∀ m, N ≤ m → Outage t l (x.state m) ∧
      ∀ j < l, (x.state m).syncs[j]? = some .done := by
  obtain ⟨t, ht⟩ := exists_silent (x.state 0)
  have hsilent : ∀ m, Silent t (x.state m) := fun m =>
    (Execution.Stable.of_meets hquiet fun s e u hs he hstep r hr =>
      hs r (rows_of_not_beats hstep he.1 hr)).of_le (n := 0) ht (Nat.zero_le m)
  obtain ⟨k, dateNow, -, hdate, hlabel⟩ := hfair.ticks 0 t
  have hclock : t ≤ (x.state (k + 1)).clock := by
    rw [← Option.some.inj (x.next k _ hlabel)]
    exact hdate
  have hstart : Outage t (x.state (k + 1)).syncs.length (x.state (k + 1)) :=
    ⟨hsilent _, hclock, Nat.le_refl _,
      fun j th hj hget => absurd (List.getElem?_eq_some_iff.1 hget).1 (by omega),
      fun j th hj hget => absurd (List.getElem?_eq_some_iff.1 hget).1 (by omega)⟩
  generalize (x.state (k + 1)).syncs.length = l at hstart
  have houtage : x.Stable (Outage t l) :=
    Execution.Stable.of_meets hquiet fun s e u hs he hstep => hs.step he.1 he.2 hstep
  have hdone : ∀ i : ℕ, x.Stable fun s : Monitor => s.syncs[i]? = some SyncPc.done := fun i =>
    Execution.Stable.of_step fun s e u hs hstep => done_of_step hstep hs
  -- the synchronizations that had begun before end one by one
  have hends : ∀ i ∈ List.range l, ∃ m, k + 1 ≤ m ∧ (x.state m).syncs[i]? = some SyncPc.done := by
    intro i hi
    have hlt := lt_of_lt_of_le (List.mem_range.1 hi) hstart.length
    by_cases hpc : (x.state (k + 1)).syncs[i] = .done
    · exact ⟨k + 1, Nat.le_refl _, List.getElem?_eq_some_iff.2 ⟨hlt, hpc⟩⟩
    · obtain ⟨m, ok, hm, hlabel', hends⟩ :=
        exists_end hfair (List.getElem?_eq_some_iff.2 ⟨hlt, rfl⟩) hpc
      exact ⟨m + 1, by omega, done_of_ends (x.next m _ hlabel') hends⟩
  obtain ⟨N, hN, hall⟩ := Execution.Stable.exists_forall hdone (List.range l) hends
  exact ⟨t, l, N, fun m hm => ⟨houtage.of_le hstart (by omega), fun j hj =>
    (hdone j).of_le (hall j (List.mem_range.2 hj)) hm⟩⟩

/-- **When no heartbeat comes from some time on, the flag is off for good in the end**, whatever
commands fail and however the synchronizations overlap. -/
theorem outage_noticed (x : Execution step) (hfair : Fair x) (hforward : x.Meets ClockForward)
    (n : ℕ) (hquiet : (x.drop n).Meets fun _ e => ¬ Beats e) :
    ∃ N, ∀ m, N ≤ m → isAvailable (x.state m) = false := by
  obtain ⟨t, l, k, hout⟩ := exists_outage (hfair.drop n)
    (fun k e he => ⟨hquiet k e he, hforward (n + k) e he⟩)
  obtain ⟨m, i, ok, hm, hlabel, hends⟩ := exists_later_end (hfair.drop n) k 0
  have hoff : isAvailable ((x.drop n).state (m + 1)) = false := by
    rw [← Bool.not_eq_true]
    intro hset
    obtain ⟨hnow, hold⟩ := hout m hm
    exact (hnow.available hold ((x.drop n).next m _ hlabel) hset).2 hends
  have hstays : ∀ j, m + 1 ≤ j → isAvailable ((x.drop n).state j) = false := by
    intro j hj
    induction j, hj using Nat.le_induction with
    | base => exact hoff
    | succ j hj ih =>
      cases hlabel' : (x.drop n).label j with
      | none =>
        rw [(x.drop n).idle j hlabel']
        exact ih
      | some e =>
        rw [← Bool.not_eq_true]
        intro hset
        obtain ⟨hnow, hold⟩ := hout j (by omega)
        rw [(hnow.available hold ((x.drop n).next j e hlabel') hset).1] at ih
        cases ih
  refine ⟨n + (m + 1), fun N hN => ?_⟩
  obtain ⟨j, rfl⟩ := Nat.exists_eq_add_of_le (show n ≤ N by omega)
  exact hstays j (by omega)

end Executions

/-! ### A synchronization a second -/

/-- The set after the heartbeats of `k` seconds. -/
def beaten (beating : Bool) : ℕ → ScoredSet String ℚ
  | 0 => Table.empty
  | k + 1 => if beating then ScoredSet.zadd Table.empty "worker-1" k else Table.empty

/-- The steps of the second `k`: a heartbeat, or another server's cleanup, and a synchronization. -/
def second (beating : Bool) (k : ℕ) : ℕ → Event
  | 0 => if beating then .beat "worker-1" k else .peer 0
  | 1 => .sync (1000 * k)
  | _ => .resume k true

/-- The server in the second `k`. -/
def inSecond (beating : Bool) (k : ℕ) : ℕ → Monitor
  | 0 => ⟨beaten beating k, beating && 0 < k, List.replicate k .done, [], 1000 * (k - 1)⟩
  | 1 => ⟨beaten beating (k + 1), beating && 0 < k, List.replicate k .done, [], 1000 * (k - 1)⟩
  | 2 => ⟨beaten beating (k + 1), beating && 0 < k,
      List.replicate k .done ++ [.clean (threshold (1000 * k))], [], 1000 * k⟩
  | 3 => ⟨beaten beating (k + 1), beating && 0 < k,
      List.replicate k .done ++ [.count (threshold (1000 * k))], [], 1000 * k⟩
  | _ => ⟨beaten beating (k + 1), beating, List.replicate k .done ++ [.done], [], 1000 * k⟩

section Second

variable (beating : Bool) (k : ℕ)

theorem threshold_second_lt : threshold (1000 * k) < k := by
  unfold threshold
  push_cast
  linarith

/-- The heartbeat of this second stays. -/
theorem clean_beaten : ScoredSet.zremrangebyscore (beaten beating (k + 1)) (threshold (1000 * k)) =
    beaten beating (k + 1) := by
  refine ScoredSet.zremrangebyscore_of_lt fun r hr => ?_
  cases beating with
  | false => cases hr
  | true =>
    rcases ScoredSet.mem_zadd.1 hr with rfl | ⟨hr, -⟩
    · exact threshold_second_lt k
    · cases hr

theorem step_second_zero :
    step (inSecond beating k 0) (second beating k 0) = some (inSecond beating k 1) := by
  cases beating with
  | false =>
    cases k with
    | zero => rfl
    | succ k => rfl
  | true =>
    cases k with
    | zero => rfl
    | succ k => rfl

theorem getElem?_replicate_concat (pc : SyncPc) :
    (List.replicate k .done ++ [pc])[k]? = some pc := by
  rw [List.getElem?_append_right (by simp)]
  simp

theorem set_replicate_concat (pc pc' : SyncPc) :
    (List.replicate k SyncPc.done ++ [pc]).set k pc' = List.replicate k SyncPc.done ++ [pc'] := by
  rw [List.set_append_right _ _ (by simp)]
  simp

theorem step_second (r : ℕ) (hr : r < 4) :
    step (inSecond beating k r) (second beating k r) = some (inSecond beating k (r + 1)) := by
  obtain rfl | rfl | rfl | rfl : r = 0 ∨ r = 1 ∨ r = 2 ∨ r = 3 := by omega
  · exact step_second_zero beating k
  · rfl
  · simp only [step, second, inSecond, getElem?_replicate_concat, if_true, Monitor.clean,
      Monitor.setPc, clean_beaten]
    rw [set_replicate_concat]
  · have hcard : decide (0 < ScoredSet.zcard (beaten beating (k + 1))) = beating := by
      cases beating <;> rfl
    have hflag : ∀ old new : Bool, (if old ≠ new then new else old) = new := by decide
    simp only [step, second, inSecond, getElem?_replicate_concat, if_true, Monitor.settle,
      Monitor.setPc, hcard, hflag]
    rw [set_replicate_concat]

theorem inSecond_four : inSecond beating k 4 = inSecond beating (k + 1) 0 := by
  simp only [inSecond, ← List.replicate_succ', Nat.add_sub_cancel, Nat.zero_lt_succ, decide_true,
    Bool.and_true]

/-- A server that synchronizes once a second. -/
def everySecond : Execution step :=
  Execution.ofRounds (Nat.zero_lt_succ 3) (step_second beating) (inSecond_four beating)

theorem everySecond_state {r : ℕ} (hr : r < 4) :
    (everySecond beating).state (4 * k + r) = inSecond beating k r :=
  Execution.ofRounds_state (Nat.zero_lt_succ 3) (step_second beating) (inSecond_four beating) hr

theorem everySecond_label {r : ℕ} (hr : r < 4) :
    (everySecond beating).label (4 * k + r) = some (second beating k r) :=
  Execution.ofRounds_label (Nat.zero_lt_succ 3) (step_second beating) (inSecond_four beating) hr

theorem fair_everySecond : Fair (everySecond beating) := by
  refine ⟨fun i n hen => ?_, fun n t => ?_⟩
  · by_cases hn : n ≤ 4 * i + 2
    · exact ⟨4 * i + 2, _, hn, ⟨true, rfl⟩, everySecond_label beating i (by omega)⟩
    · -- at the beginning of a later second it has ended
      obtain ⟨e, s, ⟨ok, rfl⟩, hs⟩ := hen (4 * (n + i + 1) + 0) (by omega)
      rw [everySecond_state beating (n + i + 1) (by omega)] at hs
      have hi : (inSecond beating (n + i + 1) 0).syncs[i]? = some .done := by
        show (List.replicate (n + i + 1) SyncPc.done)[i]? = some .done
        rw [List.getElem?_replicate, if_pos (by omega)]
      simp only [step, hi] at hs
      cases hs
  · exact ⟨4 * (n + t) + 1, 1000 * (n + t), by omega, by omega,
      everySecond_label beating (n + t) (by omega)⟩

theorem clockForward_everySecond : (everySecond beating).Meets ClockForward := by
  refine Execution.ofRounds_meets _ _ _ fun k r hr => ?_
  obtain rfl | rfl | rfl | rfl : r = 0 ∨ r = 1 ∨ r = 2 ∨ r = 3 := by omega
  · cases beating <;> trivial
  · show 1000 * (k - 1) ≤ 1000 * k
    omega
  · trivial
  · trivial

end Second

/-- Without heartbeats: the flag is off in the end. -/
theorem outage_noticed_everySecond :
    ∃ N, ∀ m, N ≤ m → isAvailable ((everySecond false).state m) = false := by
  refine outage_noticed (everySecond false) (fair_everySecond false)
    (clockForward_everySecond false) 0 ?_
  have hall : (everySecond false).Meets fun _ e => ¬ Beats e := by
    refine Execution.ofRounds_meets _ _ _ fun k r hr => ?_
    obtain rfl | rfl | rfl | rfl : r = 0 ∨ r = 1 ∨ r = 2 ∨ r = 3 := by omega
    · exact id
    · exact id
    · exact id
    · exact id
  exact fun m e he => hall (0 + m) e he

end ProtostarNest.Monitoring
