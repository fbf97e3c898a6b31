import ProtostarNest.Queue.Order

/-!
# The capacity of the work queue

`add` looks at the waiting tasks only, not at the running ones.  Between two pieces of the
service's own code a task waits only if all slots are taken, so the test is the same as a test
of all the places: an `add` is refused iff the running and the waiting tasks fill them.

* `Machine.load`: the running and the waiting tasks;
* `added`, `Suspending`: the tasks that a run adds, and the runs in which no task completes;
* `accepted_of_run`: such a run accepts the first tasks it adds, as many as there are places;
* `exists_burst`: and any new tasks can be added so, one after the other;
* `bounded_of_reachable`.
-/

namespace ProtostarNest.Queue

open Transition

variable {τ α ε : Type*} [DecidableEq τ]

/-- Running and waiting tasks. -/
def Machine.load (m : Machine τ α ε) : ℕ := m.service.activeCount + m.service.queue.length

/-- All places for tasks. -/
def Limits.capacity (lim : Limits) : ℕ := lim.concurrency + lim.maxPending

/-- The tasks that a run adds, in order. -/
def added : List (Event τ α ε) → List τ
  | [] => []
  | .add task :: es => task :: added es
  | .next :: es => added es
  | .await :: es => added es
  | .throwSync _ :: es => added es
  | .complete _ _ :: es => added es

/-- Tasks are added, started and suspended; none completes. -/
def Suspending : List (Event τ α ε) → Prop
  | [] => True
  | .add _ :: es => Suspending es
  | .next :: es => Suspending es
  | .await :: es => Suspending es
  | .throwSync _ :: _ => False
  | .complete _ _ :: _ => False

omit [DecidableEq τ] in
theorem added_append (es fs : List (Event τ α ε)) : added (es ++ fs) = added es ++ added fs := by
  induction es with
  | nil => rfl
  | cons e es ih =>
    cases e with
    | add task => rw [List.cons_append, added, added, ih, List.cons_append]
    | _ => rw [List.cons_append, added, added, ih]

omit [DecidableEq τ] in
theorem Suspending.append {es fs : List (Event τ α ε)} (h : Suspending es) (h' : Suspending fs) :
    Suspending (es ++ fs) := by
  induction es with
  | nil => exact h'
  | cons e es ih =>
    cases e with
    | throwSync e => exact h.elim
    | complete task outcome => exact h.elim
    | _ => exact ih h

section Load

variable {lim : Limits} {m m' : Machine τ α ε} {task : τ}

omit [DecidableEq τ] in
/-- In user code the waiting line is full exactly when all places are taken. -/
theorem Sound.full_iff (h : Sound lim m) (hM : 1 ≤ lim.maxPending) (hu : m.InUserCode) :
    lim.maxPending ≤ m.service.queue.length ↔ m.load = lim.capacity := by
  have hactive := h.active_le
  have hqueue := h.queue_le
  unfold Machine.load Limits.capacity
  rcases h.busy_of_inUserCode hu with hnil | hge
  · rw [hnil, List.length_nil]
    omega
  · omega

omit [DecidableEq τ] in
theorem Sound.load_le (h : Sound lim m) : m.load ≤ lim.capacity :=
  Nat.add_le_add h.active_le h.queue_le

theorem load_accept : (m.accept lim task).load = m.load + 1 := by
  simp only [Machine.load, Machine.accept, List.length_append, List.length_singleton]
  omega

/-- What an `add` does, in terms of the load. -/
theorem Sound.add_cases (h : Sound lim m) (hM : 1 ≤ lim.maxPending)
    (hs : Queue.step lim m (.add task) = some m') :
    (m.load = lim.capacity ∧
      m' = { m with promises := Function.update m.promises task (some (.rejected .queueFull)) }) ∨
    (m.load < lim.capacity ∧ m' = m.accept lim task) := by
  have hle := h.load_le
  simp only [Queue.step] at hs
  split_ifs at hs with hadd
  obtain rfl := Option.some.inj hs
  have hfull := h.full_iff hM hadd.1
  by_cases hlen : lim.maxPending ≤ m.service.queue.length
  · exact Or.inl ⟨hfull.1 hlen, if_pos hlen⟩
  · refine Or.inr ⟨?_, if_neg hlen⟩
    have hne : m.load ≠ lim.capacity := fun heq => hlen (hfull.2 heq)
    omega

/-- `next` and the suspension of a task move tasks from one place to another. -/
theorem load_next (hs : step lim m .next = some m') :
    m'.load = m.load ∧ m'.accepted = m.accepted ∧ m'.promises = m.promises := by
  rcases step_cases lim hs with
    ⟨_, he, -⟩ | ⟨_, he, -⟩ | ⟨stack, -, -, -, rfl⟩ | ⟨stack, task, queue, -, -, hq, -, rfl⟩ |
    ⟨_, _, he, -⟩ | ⟨_, _, _, hc, -⟩
  · cases he
  · cases he
  · exact ⟨rfl, rfl, rfl⟩
  · refine ⟨?_, rfl, rfl⟩
    simp only [Machine.load, hq, List.length_cons]
    omega
  · cases he
  · cases hc

theorem load_await (hs : step lim m .await = some m') :
    m'.load = m.load ∧ m'.accepted = m.accepted ∧ m'.promises = m.promises := by
  rcases step_cases lim hs with
    ⟨_, he, -⟩ | ⟨_, he, -⟩ | ⟨_, he, -⟩ | ⟨_, _, _, he, -⟩ | ⟨_, _, -, -, rfl⟩ | ⟨_, _, _, hc, -⟩
  · cases he
  · cases he
  · cases he
  · cases he
  · exact ⟨rfl, rfl, rfl⟩
  · cases hc

end Load

section Bursts

variable {lim : Limits} {m m' : Machine τ α ε}

/-- A promise that has been made stays as long as no task completes. -/
theorem promises_of_run {es : List (Event τ α ε)} {task : τ} (hes : Suspending es)
    (hp : m.promises task ≠ none) (hrun : run (step lim) m es = some m') :
    m'.promises task = m.promises task := by
  induction es generalizing m with
  | nil => cases hrun; rfl
  | cons e es ih =>
    obtain ⟨m₁, hs, hrun⟩ := (run_cons_eq_some _).1 hrun
    have hes' : Suspending es := by cases e <;> first | exact hes | exact hes.elim
    have hkeep : m₁.promises task = m.promises task := by
      by_contra hne
      rcases promise_step hs hne with ⟨-, hnone⟩ | ⟨o, m₀, hc, -⟩
      · exact hp hnone
      · cases hc <;> exact hes.elim
    rw [ih hes' (by rw [hkeep]; exact hp) hrun, hkeep]

/-- A run in which no task completes accepts the first tasks that it adds, as many as there are
places left, and refuses the others. -/
theorem accepted_of_run (hM : 1 ≤ lim.maxPending) {es : List (Event τ α ε)} (h : Sound lim m)
    (hes : Suspending es) (hrun : run (step lim) m es = some m') :
    m'.accepted = m.accepted ++ (added es).take (lim.capacity - m.load) ∧
      ∀ task ∈ (added es).drop (lim.capacity - m.load),
        m'.promises task = some (.rejected .queueFull) := by
  induction es generalizing m with
  | nil => cases hrun; simp [added]
  | cons e es ih =>
    obtain ⟨m₁, hs, hrun'⟩ := (run_cons_eq_some _).1 hrun
    cases e with
    | add task =>
      rcases h.add_cases hM hs with ⟨hfull, rfl⟩ | ⟨hlt, rfl⟩
      · obtain ⟨hacc, hrej⟩ := ih (h.step hs) hes hrun'
        have hload : lim.capacity - m.load = 0 := by omega
        simp only [Machine.load] at hload hacc hrej
        simp only [hload, List.take_zero, List.append_nil, List.drop_zero] at hacc hrej
        simp only [Machine.load, hload, List.take_zero, List.append_nil, List.drop_zero, added]
        refine ⟨hacc, fun t ht => ?_⟩
        rcases List.mem_cons.1 ht with rfl | ht
        · have hmade : ({ m with
              promises := Function.update m.promises t (some (.rejected .queueFull)) }).promises t =
                some (Promise.rejected Reason.queueFull) := Function.update_self _ _ _
          have hes' : Suspending es := hes
          refine (promises_of_run hes' ?_ hrun').trans hmade
          rw [hmade]
          exact Option.some_ne_none _
        · exact hrej t ht
      · obtain ⟨hacc, hrej⟩ := ih (h.step hs) hes hrun'
        obtain ⟨room, hroom⟩ : ∃ room, lim.capacity - m.load = room + 1 :=
          ⟨lim.capacity - m.load - 1, by omega⟩
        have hroom' : lim.capacity - (m.accept lim task).load = room := by
          rw [load_accept]
          omega
        rw [hroom'] at hacc hrej
        rw [hroom, added, List.take_succ_cons, List.drop_succ_cons]
        refine ⟨?_, hrej⟩
        rw [hacc, Machine.accept, List.append_assoc, List.singleton_append]
    | next =>
      obtain ⟨hload, hacc, -⟩ := load_next hs
      rw [added, ← hload, ← hacc]
      exact ih (h.step hs) hes hrun'
    | await =>
      obtain ⟨hload, hacc, -⟩ := load_await hs
      rw [added, ← hload, ← hacc]
      exact ih (h.step hs) hes hrun'
    | throwSync e => exact hes.elim
    | complete task outcome => exact hes.elim

/-- A task that is added while a slot is free starts at once; here it suspends at once. -/
theorem run_add_free {task : τ} (hM : 1 ≤ lim.maxPending) (hu : m.InUserCode)
    (hnew : m.promises task = none) (hq : m.service.queue = [])
    (hfree : m.service.activeCount < lim.concurrency) :
    ∃ m', run (step lim) m [.add task, .next, .await, .next] = some m' ∧ m'.stack = m.stack ∧
      m'.promises = Function.update m.promises task (some .pending) := by
  have hroom : ¬ m.service.queue.length ≥ lim.maxPending := by rw [hq, List.length_nil]; omega
  have hadd : step lim m (.add task) = some (m.add lim task) := if_pos ⟨hu, hnew⟩
  rw [run_cons_some _ _ hadd, Machine.add, if_neg hroom, if_pos hfree, hq, List.nil_append]
  refine ⟨
    { m with
      service := ⟨[], m.service.activeCount + 1⟩
      suspended := m.suspended ++ [task]
      promises := Function.update m.promises task (some .pending)
      accepted := m.accepted ++ [task]
      started := m.started ++ [task] }, ?_, rfl, rfl⟩
  simp [run_cons, step, Machine.next, hfree]

/-- Any new tasks can be added one after the other. -/
theorem exists_burst (hM : 1 ≤ lim.maxPending) (h : Sound lim m) (hu : m.InUserCode)
    {tasks : List τ} (hnodup : tasks.Nodup) (hnew : ∀ task ∈ tasks, m.promises task = none) :
    ∃ es m', run (step lim) m es = some m' ∧ Suspending es ∧ added es = tasks ∧
      m'.stack = m.stack := by
  induction tasks generalizing m with
  | nil => exact ⟨[], m, rfl, trivial, rfl, rfl⟩
  | cons task tasks ih =>
    obtain ⟨htask, hnodup'⟩ := List.nodup_cons.1 hnodup
    have hnone : m.promises task = none := hnew task List.mem_cons_self
    have hadd : step lim m (.add task) = some (m.add lim task) := if_pos ⟨hu, hnone⟩
    -- the first `add` leads to a state in user code, with a promise for this task only
    obtain ⟨es, m₁, hrun, hes, hadded, hstack, p, hpromises⟩ :
        ∃ es m₁, run (step lim) m es = some m₁ ∧ Suspending es ∧ added es = [task] ∧
          m₁.stack = m.stack ∧ ∃ p, m₁.promises = Function.update m.promises task (some p) := by
      by_cases hfull : m.service.queue.length ≥ lim.maxPending
      · refine ⟨[.add task], _, by rw [run_cons_some _ _ hadd, run_nil], trivial, rfl, ?_⟩
        rw [Machine.add, if_pos hfull]
        exact ⟨rfl, _, rfl⟩
      · by_cases hfree : m.service.activeCount < lim.concurrency
        · have hq : m.service.queue = [] :=
            (h.busy_of_inUserCode hu).resolve_right (Nat.not_le.2 hfree)
          obtain ⟨m₁, hrun, hstack, hpromises⟩ := run_add_free hM hu hnone hq hfree
          exact ⟨_, m₁, hrun, trivial, rfl, hstack, _, hpromises⟩
        · refine ⟨[.add task], _, by rw [run_cons_some _ _ hadd, run_nil], trivial, rfl, ?_⟩
          rw [Machine.add, if_neg hfull, if_neg hfree]
          exact ⟨rfl, _, rfl⟩
    have hsound : Sound lim m₁ := invariant (fun _ _ _ hs hstep => hs.step hstep) h ⟨es, hrun⟩
    have hu₁ : m₁.InUserCode := by rw [Machine.InUserCode, hstack]; exact hu
    have hnew₁ : ∀ t ∈ tasks, m₁.promises t = none := by
      intro t ht
      have hne : t ≠ task := by rintro rfl; exact htask ht
      rw [hpromises, Function.update_of_ne hne]
      exact hnew t (List.mem_cons_of_mem _ ht)
    obtain ⟨fs, m', hrun', hfs, hadded', hstack'⟩ := ih hsound hu₁ hnodup' hnew₁
    refine ⟨es ++ fs, m', (run_append_eq_some _).2 ⟨m₁, hrun, hrun'⟩, hes.append hfs, ?_,
      hstack'.trans hstack⟩
    rw [added_append, hadded, hadded', List.singleton_append]

end Bursts

/-! ### The bounds -/

/-- The bounds of the service, the exactness of its admission test, and what a burst of calls of
`add` does. -/
structure Bounded (lim : Limits) (m : Machine τ α ε) : Prop where
  active_le : m.service.activeCount ≤ lim.concurrency
  queue_le : m.service.queue.length ≤ lim.maxPending
  busy : m.InUserCode → 0 < m.service.queue.length → m.service.activeCount = lim.concurrency
  rejects_iff : m.InUserCode → ∀ task,
    (m.add lim task).promises task = some (.rejected .queueFull) ↔
      m.service.activeCount + m.service.queue.length = lim.concurrency + lim.maxPending
  isBusy_iff : m.InUserCode → (m.service.isBusy lim = true ↔
    m.service.activeCount + m.service.queue.length = lim.concurrency + lim.maxPending)
  burst : m.InUserCode → ∀ tasks : List τ, tasks.Nodup → (∀ t ∈ tasks, m.promises t = none) →
    ∃ es m', run (step lim) m es = some m' ∧ Suspending es ∧ added es = tasks ∧
      m'.stack = m.stack
  burst_accepts : m.InUserCode → ∀ es m', Suspending es → run (step lim) m es = some m' →
    m'.accepted = m.accepted ++ (added es).take (lim.concurrency + lim.maxPending -
        (m.service.activeCount + m.service.queue.length)) ∧
      ∀ task ∈ (added es).drop (lim.concurrency + lim.maxPending -
          (m.service.activeCount + m.service.queue.length)),
        m'.promises task = some (.rejected .queueFull)

theorem bounded_of_reachable {lim : Limits} {m : Machine τ α ε} (hM : 1 ≤ lim.maxPending)
    (h : Reachable (step lim) .init m) : Bounded lim m := by
  have hs := sound_of_reachable lim h
  refine ⟨hs.active_le, hs.queue_le, ?_, ?_, ?_, ?_, ?_⟩
  · intro hu hpos
    rcases hs.busy_of_inUserCode hu with hnil | hge
    · rw [hnil] at hpos
      exact absurd hpos (Nat.lt_irrefl 0)
    · exact Nat.le_antisymm hs.active_le hge
  · intro hu task
    refine Iff.trans ?_ (hs.full_iff hM hu)
    by_cases hfull : lim.maxPending ≤ m.service.queue.length
    · rw [Machine.add, if_pos hfull]
      exact iff_of_true (Function.update_self _ _ _) hfull
    · rw [Machine.add, if_neg hfull]
      refine iff_of_false (fun hp => ?_) hfull
      have hpending : Function.update m.promises task (some .pending) task =
          some Promise.pending := Function.update_self _ _ _
      cases hpending.symm.trans hp
  · intro hu
    rw [QueueService.isBusy, decide_eq_true_iff]
    exact hs.full_iff hM hu
  · intro hu tasks hnodup hnew
    exact exists_burst hM hs hu hnodup hnew
  · intro _ es m' hes hrun
    exact accepted_of_run hM hs hes hrun

/-- One slot and one place in the line: of three tasks added at once, the third is refused. -/
theorem bounded_threeAdds : ∃ m : Machine ℕ Unit String,
    run (step ⟨1, 1⟩) .init [.add 0, .next, .await, .next, .add 1, .add 2] = some m ∧
      m.accepted = [0, 1] ∧ Bounded ⟨1, 1⟩ m :=
  ⟨_, rfl, rfl, bounded_of_reachable (le_refl 1)
    ⟨[.add 0, .next, .await, .next, .add 1, .add 2], rfl⟩⟩

end ProtostarNest.Queue
