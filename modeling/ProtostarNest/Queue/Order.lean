import ProtostarNest.Lib.Fifo
import ProtostarNest.Queue.Service

/-!
# The work queue is first come, first served

`Machine.abs` forgets the call stack and the promises of the queue machine; what is left is a
`Fifo`.  Every step of the machine is at most one event of it (`simulates`), so its order and
conservation laws hold of the service.

* `step_cases`: the inversion of `step`, with `Completes` for the two ways a task can end;
* `Sound`: the invariant, in which `busy` says that a waiting task finds all slots taken unless
  a call of `next` is about to run;
* `lossFree_of_reachable`: nothing is lost, repeated or reordered, and each promise is settled
  by its own task.
-/

namespace ProtostarNest.Queue

open Transition

variable {τ α ε : Type*} [DecidableEq τ] (lim : Limits)

/-- The tasks whose bodies are on the stack. -/
def bodies : List (Frame τ) → List τ
  | [] => []
  | .next :: stack => bodies stack
  | .body task :: stack => task :: bodies stack

/-- The tasks that hold a slot. -/
def Machine.running (m : Machine τ α ε) : List τ := bodies m.stack ++ m.suspended

/-- The label `e` ends `task` with `outcome`; `m'` is `m` without the task's frame or promise. -/
inductive Completes (m : Machine τ α ε) : Event τ α ε → τ → Except ε α → Machine τ α ε → Prop
  | throwSync (task : τ) (stack : List (Frame τ)) (e : ε) (hs : m.stack = .body task :: stack) :
      Completes m (.throwSync e) task (.error e) { m with stack := stack }
  | complete (task : τ) (outcome : Except ε α) (hs : m.stack = []) (ht : task ∈ m.suspended) :
      Completes m (.complete task outcome) task outcome
        { m with suspended := m.suspended.erase task }

/-- The machine after an `add` that was not refused. -/
def Machine.accept (m : Machine τ α ε) (task : τ) : Machine τ α ε :=
  { m with
    promises := Function.update m.promises task (some .pending)
    accepted := m.accepted ++ [task]
    service := { m.service with queue := m.service.queue ++ [task] }
    stack := if m.service.activeCount < lim.concurrency then .next :: m.stack else m.stack }

theorem step_cases {m m' : Machine τ α ε} {e : Event τ α ε} (h : step lim m e = some m') :
    (∃ task, e = .add task ∧ m.promises task = none ∧ lim.maxPending ≤ m.service.queue.length ∧
      m' = { m with promises := Function.update m.promises task (some (.rejected .queueFull)) }) ∨
    (∃ task, e = .add task ∧ m.InUserCode ∧ m.promises task = none ∧
      m.service.queue.length < lim.maxPending ∧ m' = m.accept lim task) ∨
    (∃ stack, e = .next ∧ m.stack = .next :: stack ∧
      (m.service.queue = [] ∨ lim.concurrency ≤ m.service.activeCount) ∧
      m' = { m with stack := stack }) ∨
    (∃ stack task queue, e = .next ∧ m.stack = .next :: stack ∧ m.service.queue = task :: queue ∧
      m.service.activeCount < lim.concurrency ∧
      m' = { m with
        service := ⟨queue, m.service.activeCount + 1⟩
        stack := .body task :: .next :: stack
        started := m.started ++ [task] }) ∨
    (∃ stack task, e = .await ∧ m.stack = .body task :: stack ∧
      m' = { m with stack := stack, suspended := m.suspended ++ [task] }) ∨
    ∃ task outcome m₀, Completes m e task outcome m₀ ∧ m' = m₀.settle task outcome := by
  cases e with
  | add task =>
    simp only [step] at h
    split_ifs at h with hadd
    obtain rfl := Option.some.inj h
    rcases Nat.lt_or_ge m.service.queue.length lim.maxPending with hlt | hge
    · exact Or.inr (Or.inl ⟨task, rfl, hadd.1, hadd.2, hlt, if_neg (Nat.not_le.2 hlt)⟩)
    · exact Or.inl ⟨task, rfl, hadd.2, hge, if_pos hge⟩
  | next =>
    simp only [step] at h
    split at h
    · rename_i stack hs
      obtain rfl := Option.some.inj h
      unfold Machine.next
      split_ifs with hlt
      · cases hq : m.service.queue with
        | nil => exact Or.inr (Or.inr (Or.inl ⟨stack, rfl, hs, Or.inl rfl, rfl⟩))
        | cons task queue =>
          exact Or.inr (Or.inr (Or.inr (Or.inl ⟨stack, task, queue, rfl, hs, rfl, hlt, rfl⟩)))
      · exact Or.inr (Or.inr (Or.inl ⟨stack, rfl, hs, Or.inr (Nat.not_lt.1 hlt), rfl⟩))
    · cases h
  | await =>
    simp only [step] at h
    split at h
    · rename_i task stack hs
      exact Or.inr (Or.inr (Or.inr (Or.inr (Or.inl
        ⟨stack, task, rfl, hs, (Option.some.inj h).symm⟩))))
    · cases h
  | throwSync e =>
    simp only [step] at h
    split at h
    · rename_i task stack hs
      exact Or.inr (Or.inr (Or.inr (Or.inr (Or.inr
        ⟨task, _, _, .throwSync task stack e hs, (Option.some.inj h).symm⟩))))
    · cases h
  | complete task outcome =>
    simp only [step] at h
    split_ifs at h with hc
    exact Or.inr (Or.inr (Or.inr (Or.inr (Or.inr
      ⟨task, outcome, _, .complete task outcome hc.1 hc.2, (Option.some.inj h).symm⟩))))

/-- A task that ends leaves the rest of the machine alone. -/
theorem Completes.frame {m m₀ : Machine τ α ε} {e : Event τ α ε} {task : τ}
    {outcome : Except ε α} (hc : Completes m e task outcome m₀) :
    m₀.service = m.service ∧ m₀.promises = m.promises ∧ m₀.accepted = m.accepted ∧
      m₀.started = m.started ∧ m₀.completions = m.completions := by
  cases hc <;> exact ⟨rfl, rfl, rfl, rfl, rfl⟩

/-- A task that ends was running, and was running only once. -/
theorem Completes.running {m m₀ : Machine τ α ε} {e : Event τ α ε} {task : τ}
    {outcome : Except ε α} (hc : Completes m e task outcome m₀) :
    task ∈ m.running ∧ (m₀.running : Multiset τ) = (m.running : Multiset τ).erase task := by
  cases hc with
  | throwSync _ stack e hs => simp [Machine.running, hs, bodies]
  | complete _ _ hs ht => simp [Machine.running, hs, bodies, ht]

theorem Completes.inUserCode {m m₀ : Machine τ α ε} {e : Event τ α ε} {task : τ}
    {outcome : Except ε α} (hc : Completes m e task outcome m₀) : m.InUserCode := by
  cases hc with
  | throwSync _ stack e hs => simp [Machine.InUserCode, hs]
  | complete _ _ hs ht => simp [Machine.InUserCode, hs]

omit [DecidableEq τ] in
theorem bodies_ite (p : Prop) [Decidable p] (stack : List (Frame τ)) :
    bodies (if p then .next :: stack else stack) = bodies stack := by
  split_ifs <;> rfl

theorem running_settle (m : Machine τ α ε) (task : τ) (outcome : Except ε α) :
    (m.settle task outcome).running = m.running := rfl

theorem running_accept (m : Machine τ α ε) (task : τ) :
    (m.accept lim task).running = m.running := by
  simp only [Machine.running, Machine.accept, bodies_ite]

/-! ### Refinement -/

/-- The queue as a service point. -/
def Machine.abs (m : Machine τ α ε) : Fifo τ where
  arrived := m.accepted
  started := m.started
  finished := m.completions.map Prod.fst
  waiting := m.service.queue
  serving := m.running

/-- A promise is pending until its task completes, and then tells the outcome. -/
structure Answered (m : Machine τ α ε) : Prop where
  pending : ∀ task ∈ m.accepted, task ∉ m.completions.map Prod.fst →
    m.promises task = some .pending
  settled : ∀ p ∈ m.completions, m.promises p.1 = some (Promise.ofOutcome p.2)
  refused : ∀ task, m.promises task ≠ none → task ∉ m.accepted →
    m.promises task = some (.rejected .queueFull)

namespace Answered

variable {m m₀ : Machine τ α ε} {e : Event τ α ε} {task : τ} {outcome : Except ε α}

theorem notMem_accepted (h : Answered m) (ht : m.promises task = none) : task ∉ m.accepted := by
  intro hmem
  by_cases hdone : task ∈ m.completions.map Prod.fst
  · obtain ⟨p, hp, rfl⟩ := List.mem_map.1 hdone
    rw [h.settled p hp] at ht
    cases ht
  · rw [h.pending task hmem hdone] at ht
    cases ht

theorem refuse (h : Answered m) (hnew : m.promises task = none) :
    Answered { m with
      promises := Function.update m.promises task (some (.rejected .queueFull)) } where
  pending t ht hdone := by
    have hne : t ≠ task := by rintro rfl; exact h.notMem_accepted hnew ht
    exact (Function.update_of_ne hne _ _).trans (h.pending t ht hdone)
  settled p hp := by
    have hne : p.1 ≠ task := by rintro rfl; simp [h.settled p hp] at hnew
    exact (Function.update_of_ne hne _ _).trans (h.settled p hp)
  refused t ht hacc := by
    by_cases hne : t = task
    · subst hne; exact Function.update_self _ _ _
    · simp only [Function.update_of_ne hne] at ht ⊢
      exact h.refused t ht hacc

theorem accept (h : Answered m) (hnew : m.promises task = none) :
    Answered (m.accept lim task) where
  pending t ht hdone := by
    by_cases hne : t = task
    · subst hne; exact Function.update_self _ _ _
    · have ht' : t ∈ m.accepted := by simpa [Machine.accept, hne] using ht
      exact (Function.update_of_ne hne _ _).trans (h.pending t ht' hdone)
  settled p hp := by
    have hne : p.1 ≠ task := by rintro rfl; simp [h.settled p hp] at hnew
    exact (Function.update_of_ne hne _ _).trans (h.settled p hp)
  refused t ht hacc := by
    have hacc' : t ∉ m.accepted ∧ t ≠ task := by simpa [Machine.accept] using hacc
    simp only [Machine.accept, Function.update_of_ne hacc'.2] at ht ⊢
    exact h.refused t ht hacc'.1

/-- The promise of the task that ends, which no earlier completion settled. -/
theorem settle (h : Answered m) (hc : Completes m e task outcome m₀)
    (hacc : task ∈ m.accepted) (hfirst : task ∉ m.completions.map Prod.fst) :
    Answered (m₀.settle task outcome) := by
  obtain ⟨-, hpromises, haccepted, -, hcomp⟩ := hc.frame
  refine ⟨fun t ht hdone => ?_, fun p hp => ?_, fun t ht hnacc => ?_⟩
  · simp only [Machine.settle, hcomp, haccepted, hpromises, List.map_append, List.mem_append,
      List.map_cons, List.map_nil, List.mem_singleton, not_or] at ht hdone ⊢
    rw [Function.update_of_ne hdone.2]
    exact h.pending t ht hdone.1
  · simp only [Machine.settle, hcomp, hpromises, List.mem_append, List.mem_singleton] at hp ⊢
    rcases hp with hp | rfl
    · have hne : p.1 ≠ task := by
        rintro rfl
        exact hfirst (List.mem_map_of_mem hp)
      rw [Function.update_of_ne hne]
      exact h.settled p hp
    · exact Function.update_self _ _ _
  · simp only [Machine.settle, haccepted, hpromises] at ht hnacc ⊢
    have hne : t ≠ task := by rintro rfl; exact hnacc hacc
    rw [Function.update_of_ne hne] at ht ⊢
    exact h.refused t ht hnacc

end Answered

structure Sound (m : Machine τ α ε) : Prop where
  ordered : Fifo.Ordered m.abs
  active_eq : m.service.activeCount = m.running.length
  active_le : m.service.activeCount ≤ lim.concurrency
  queue_le : m.service.queue.length ≤ lim.maxPending
  busy : (m.service.queue = [] ∨ lim.concurrency ≤ m.service.activeCount) ∨
    (m.stack.head? = some .next ∧
      (m.service.queue.length ≤ 1 ∨ lim.concurrency ≤ m.service.activeCount + 1))
  answered : Answered m

namespace Sound

variable {lim} {m m' m₀ : Machine τ α ε} {e : Event τ α ε} {task : τ} {outcome : Except ε α}

omit [DecidableEq τ] in
/-- Outside of the service's code, a waiting task means that all slots are taken. -/
theorem busy_of_inUserCode (h : Sound lim m) (hu : m.InUserCode) :
    m.service.queue = [] ∨ lim.concurrency ≤ m.service.activeCount :=
  h.busy.resolve_right fun hnext => hu hnext.1

theorem arrive (h : Sound lim m) (hnew : m.promises task = none) :
    run Fifo.step m.abs [.arrive task] = some (m.accept lim task).abs := by
  have harr : task ∉ m.abs.arrived := h.answered.notMem_accepted hnew
  rw [run_cons, Fifo.step, if_neg harr, Option.bind_some, run_nil]
  unfold Machine.abs
  rw [running_accept]
  rfl

theorem finish (hc : Completes m e task outcome m₀) :
    run Fifo.step m.abs [.finish task] = some (m₀.settle task outcome).abs := by
  obtain ⟨hmem, herase⟩ := hc.running
  obtain ⟨hservice, -, hacc, hstart, hcomp⟩ := hc.frame
  rw [run_cons, Fifo.step, if_pos (by exact Multiset.mem_coe.2 hmem), Option.bind_some, run_nil]
  simp only [Machine.abs, running_settle, herase]
  simp [Machine.settle, hservice, hacc, hstart, hcomp]

/-- Each step of the machine is at most one event of the service point. -/
theorem simulates : Simulates (step lim) Fifo.step (Sound lim)
    (Machine.abs (τ := τ) (α := α) (ε := ε)) := by
  intro m e m' h hstep
  rcases step_cases lim hstep with
    ⟨task, rfl, hnew, hfull, rfl⟩ | ⟨task, rfl, huser, hnew, hroom, rfl⟩ |
    ⟨stack, rfl, hs, hidle, rfl⟩ | ⟨stack, task, queue, rfl, hs, hq, hfree, rfl⟩ |
    ⟨stack, task, rfl, hs, rfl⟩ | ⟨task, outcome, m₀, hc, rfl⟩
  · exact ⟨[], rfl⟩
  · exact ⟨[.arrive task], h.arrive hnew⟩
  · refine ⟨[], ?_⟩
    simp [Machine.abs, Machine.running, hs, bodies]
  · refine ⟨[.start], ?_⟩
    simp [run_cons, Fifo.step, Machine.abs, Machine.running, hs, hq, bodies]
  · refine ⟨[], ?_⟩
    have hperm : (bodies m.stack ++ m.suspended).Perm
        (bodies stack ++ (m.suspended ++ [task])) := by
      rw [hs, bodies, List.cons_append, ← List.append_assoc]
      exact (List.perm_append_singleton task _).symm
    simp only [run_nil, Machine.abs, Machine.running, Multiset.coe_eq_coe.2 hperm]
  · exact ⟨[.finish task], finish hc⟩

/-- A task that ends was accepted and had not ended before. -/
theorem of_completes (h : Sound lim m) (hc : Completes m e task outcome m₀) :
    task ∈ m.accepted ∧ task ∉ m.completions.map Prod.fst := by
  have hserving : task ∈ m.abs.serving := Multiset.mem_coe.2 hc.running.1
  refine ⟨?_, h.ordered.notMem_finished hserving⟩
  exact h.ordered.started_prefix.subset ((h.ordered.mem_started_iff task).2 (Or.inl hserving))

omit [DecidableEq τ] in
theorem init : Sound lim (Machine.init : Machine τ α ε) where
  ordered := Fifo.ordered_init
  active_eq := rfl
  active_le := Nat.zero_le _
  queue_le := Nat.zero_le _
  busy := Or.inl (Or.inl rfl)
  answered :=
    ⟨fun _ h => absurd h List.not_mem_nil, fun _ h => absurd h List.not_mem_nil,
      fun _ h => absurd rfl h⟩

theorem step (h : Sound lim m) (hstep : Queue.step lim m e = some m') : Sound lim m' := by
  obtain ⟨ds, hds⟩ := simulates m e m' h hstep
  have hord : Fifo.Ordered m'.abs :=
    invariant (fun _ _ _ hs hstep => hs.step hstep) h.ordered ⟨ds, hds⟩
  have hqle := h.queue_le
  have hale := h.active_le
  have haeq := h.active_eq
  have hbusy := h.busy
  rcases step_cases lim hstep with
    ⟨task, rfl, hnew, hfull, rfl⟩ | ⟨task, rfl, huser, hnew, hroom, rfl⟩ |
    ⟨stack, rfl, hs, hidle, rfl⟩ | ⟨stack, task, queue, rfl, hs, hq, hfree, rfl⟩ |
    ⟨stack, task, rfl, hs, rfl⟩ | ⟨task, outcome, m₀, hc, rfl⟩
  · exact ⟨hord, haeq, hale, hqle, hbusy, h.answered.refuse hnew⟩
  · refine ⟨hord, by rw [running_accept]; exact haeq, hale, ?_, ?_, h.answered.accept lim hnew⟩
    · simp only [Machine.accept, List.length_append, List.length_singleton]
      omega
    · rcases h.busy_of_inUserCode huser with hnil | hge
      · rcases Nat.lt_or_ge m.service.activeCount lim.concurrency with hlt | hge
        · exact Or.inr ⟨by simp [Machine.accept, hlt], Or.inl (by simp [Machine.accept, hnil])⟩
        · exact Or.inl (Or.inr hge)
      · exact Or.inl (Or.inr hge)
  · have hrun : ({ m with stack := stack } : Machine τ α ε).running = m.running := by
      simp only [Machine.running, hs, bodies]
    exact ⟨hord, by rw [hrun]; exact haeq, hale, hqle, Or.inl hidle,
      ⟨h.answered.pending, h.answered.settled, h.answered.refused⟩⟩
  · refine ⟨hord, ?_, hfree, ?_, Or.inl ?_,
      ⟨h.answered.pending, h.answered.settled, h.answered.refused⟩⟩
    · simp [haeq, Machine.running, hs, bodies]
    · rw [hq, List.length_cons] at hqle
      exact Nat.le_of_succ_le hqle
    · -- what was short of one more start is exhausted by it
      simp only [hs, hq, List.head?_cons, List.length_cons, reduceCtorEq, false_or,
        true_and] at hbusy
      rcases hbusy with hge | hlen | hge
      · exact absurd hfree (Nat.not_lt.2 hge)
      · exact Or.inl (List.eq_nil_of_length_eq_zero (Nat.le_zero.1 (Nat.le_of_succ_le_succ hlen)))
      · exact Or.inr hge
  · refine ⟨hord, ?_, hale, hqle, Or.inl (h.busy_of_inUserCode (by simp [Machine.InUserCode, hs])),
      ⟨h.answered.pending, h.answered.settled, h.answered.refused⟩⟩
    rw [haeq]
    simp only [Machine.running, hs, bodies, List.length_append, List.length_cons, List.length_nil]
    omega
  · obtain ⟨hacc, hfirst⟩ := h.of_completes hc
    obtain ⟨hmem, herase⟩ := hc.running
    obtain ⟨hservice, -⟩ := hc.frame
    have hcard : m₀.running.length = m.running.length - 1 := by
      rw [← Multiset.coe_card, herase, Multiset.card_erase_of_mem (Multiset.mem_coe.2 hmem),
        Multiset.coe_card]
      rfl
    refine ⟨hord, ?_, ?_, ?_, ?_, h.answered.settle hc hacc hfirst⟩
    · rw [running_settle, hcard, ← haeq, ← hservice]; rfl
    · simp only [Machine.settle, hservice]; omega
    · simp only [Machine.settle, hservice]; exact hqle
    · simp only [Machine.settle, hservice, List.head?_cons, true_and]
      rcases h.busy_of_inUserCode hc.inUserCode with hnil | hge
      · exact Or.inl (Or.inl hnil)
      · exact Or.inr (Or.inr (by omega))

end Sound

theorem sound_of_reachable {m : Machine τ α ε} (h : Reachable (step lim) .init m) : Sound lim m :=
  invariant (fun _ _ _ hs hstep => hs.step hstep) Sound.init h

/-- **The queue refines the service point**: what it reaches is reached by first come, first
served. -/
theorem refines {m : Machine τ α ε} (h : Reachable (step lim) .init m) :
    Reachable Fifo.step Fifo.init m.abs :=
  Simulates.reachable Sound.simulates (fun _ _ _ hs hstep => hs.step hstep) Sound.init h

/-! ### What callers rely on -/

section Guarantees

variable {lim} {m m' m₀ : Machine τ α ε} {e : Event τ α ε} {task : τ} {outcome : Except ε α}

omit [DecidableEq τ] in
theorem Promise.ofOutcome_injective :
    Function.Injective (Promise.ofOutcome : Except ε α → Promise α ε) := by
  intro o o' h
  cases o <;> cases o' <;> cases h <;> rfl

omit [DecidableEq τ] in
theorem Promise.ofOutcome_ne_pending (o : Except ε α) : Promise.ofOutcome o ≠ .pending := by
  cases o <;> intro h <;> cases h

/-- The promise of an accepted task tells the outcome that the task completed with. -/
theorem Sound.settled_iff (h : Sound lim m) (ht : task ∈ m.accepted) (o : Except ε α) :
    m.promises task = some (Promise.ofOutcome o) ↔ (task, o) ∈ m.completions := by
  refine ⟨fun hp => ?_, fun hmem => h.answered.settled (task, o) hmem⟩
  by_cases hdone : task ∈ m.completions.map Prod.fst
  · obtain ⟨⟨t, o'⟩, hmem, rfl⟩ := List.mem_map.1 hdone
    have heq := (h.answered.settled _ hmem).symm.trans hp
    rw [← Promise.ofOutcome_injective (Option.some.inj heq)]
    exact hmem
  · rw [h.answered.pending task ht hdone] at hp
    exact absurd (Option.some.inj hp).symm (Promise.ofOutcome_ne_pending o)

/-- A task whose promise was rejected by `add` itself is not one of the accepted tasks. -/
theorem Sound.notMem_of_queueFull (h : Sound lim m)
    (hp : m.promises task = some (.rejected .queueFull)) : task ∉ m.accepted := by
  intro ht
  by_cases hdone : task ∈ m.completions.map Prod.fst
  · obtain ⟨⟨t, o⟩, hmem, rfl⟩ := List.mem_map.1 hdone
    have heq := Option.some.inj ((h.answered.settled _ hmem).symm.trans hp)
    cases o <;> cases heq
  · rw [h.answered.pending task ht hdone] at hp
    cases hp

/-- A promise changes when it is made and when its own task completes, at no other time. -/
theorem promise_step (hstep : step lim m e = some m') (hne : m'.promises task ≠ m.promises task) :
    (e = .add task ∧ m.promises task = none) ∨
      ∃ o m₀, Completes m e task o m₀ ∧ m'.promises task = some (Promise.ofOutcome o) := by
  rcases step_cases lim hstep with
    ⟨t, rfl, hnew, -, rfl⟩ | ⟨t, rfl, -, hnew, -, rfl⟩ | ⟨_, -, -, -, rfl⟩ |
    ⟨_, _, _, -, -, -, -, rfl⟩ | ⟨_, _, -, -, rfl⟩ | ⟨t, o, m₀, hc, rfl⟩
  · by_cases ht : task = t
    · subst ht; exact Or.inl ⟨rfl, hnew⟩
    · exact absurd (Function.update_of_ne ht _ _) hne
  · by_cases ht : task = t
    · subst ht; exact Or.inl ⟨rfl, hnew⟩
    · exact absurd (Function.update_of_ne ht _ _) hne
  · exact absurd rfl hne
  · exact absurd rfl hne
  · exact absurd rfl hne
  · by_cases ht : task = t
    · subst ht; exact Or.inr ⟨o, m₀, hc, Function.update_self _ _ _⟩
    · refine absurd ?_ hne
      exact (Function.update_of_ne ht _ _).trans (congrFun hc.frame.2.1 task)

/-- What the end of a task does to the service is the same for a value and for an error. -/
theorem Sound.completion (h : Sound lim m) (hstep : Queue.step lim m e = some m')
    (hc : Completes m e task outcome m₀) :
    m'.service.queue = m.service.queue ∧
      m'.service.activeCount + 1 = m.service.activeCount ∧
      m'.stack = .next :: m₀.stack ∧
      m.promises task = some .pending ∧
      m'.promises task = some (Promise.ofOutcome outcome) := by
  obtain ⟨hacc, hfirst⟩ := h.of_completes hc
  have hpos : 0 < m.running.length := List.length_pos_of_mem hc.running.1
  have hactive := h.active_eq
  have hm' : m' = m₀.settle task outcome := by
    cases hc with
    | throwSync _ stack e hs =>
      simp only [Queue.step, hs] at hstep
      exact (Option.some.inj hstep).symm
    | complete _ _ hs ht =>
      simp only [Queue.step, if_pos (And.intro hs ht)] at hstep
      exact (Option.some.inj hstep).symm
  obtain ⟨hservice, -⟩ := hc.frame
  subst hm'
  refine ⟨?_, ?_, rfl, h.answered.pending task hacc hfirst, Function.update_self _ _ _⟩
  · simp only [Machine.settle, hservice]
  · simp only [Machine.settle, hservice]; omega

/-- With a slot free and a task waiting, the service is about to start it. -/
theorem Sound.starts (h : Sound lim m) (hfree : m.service.activeCount < lim.concurrency)
    {queue : List τ} (hq : m.service.queue = task :: queue) :
    ∃ m', Queue.step lim m .next = some m' ∧ m'.started = m.started ++ [task] := by
  have hnext : m.stack.head? = some .next := by
    rcases h.busy with (hnil | hge) | hnext
    · rw [hnil] at hq; cases hq
    · exact absurd hfree (Nat.not_lt.2 hge)
    · exact hnext.1
  obtain ⟨stack, hs⟩ := List.head?_eq_some_iff.1 hnext
  refine ⟨_, by simp only [Queue.step, hs]; rfl, ?_⟩
  simp only [Machine.next, if_pos hfree, hq]

variable (lim) in
/-- Nothing is lost, repeated or reordered. -/
structure LossFree (m : Machine τ α ε) : Prop where
  started_once : m.started.Nodup
  in_order : m.started <+: m.accepted
  waiting : ∀ task ∈ m.service.queue, task ∈ m.accepted ∧ task ∉ m.started
  rejected : ∀ task, m.promises task = some (.rejected .queueFull) →
    task ∉ m.accepted ∧ task ∉ m.started
  settled_iff : ∀ task ∈ m.accepted, ∀ o,
    m.promises task = some (Promise.ofOutcome o) ↔ (task, o) ∈ m.completions
  pending_iff : ∀ task ∈ m.accepted,
    m.promises task = some .pending ↔ task ∉ m.completions.map Prod.fst
  promise_step : ∀ e m', step lim m e = some m' → ∀ task, m'.promises task ≠ m.promises task →
    (e = .add task ∧ m.promises task = none) ∨
      ∃ o m₀, Completes m e task o m₀ ∧ m'.promises task = some (Promise.ofOutcome o)
  completion : ∀ e m' task o m₀, step lim m e = some m' → Completes m e task o m₀ →
    m'.service.queue = m.service.queue ∧
      m'.service.activeCount + 1 = m.service.activeCount ∧
      m'.stack = .next :: m₀.stack ∧
      m.promises task = some .pending ∧
      m'.promises task = some (Promise.ofOutcome o)
  completed_once : (m.completions.map Prod.fst).Nodup
  count : m.accepted.length =
    m.service.queue.length + m.service.activeCount + m.completions.length
  idle_empty : m.InUserCode → m.service.activeCount = 0 → m.service.queue = []
  idle_starts : m.service.activeCount = 0 → ∀ task queue, m.service.queue = task :: queue →
    ∃ m', step lim m .next = some m' ∧ m'.started = m.started ++ [task]

theorem lossFree_of_reachable (hC : 1 ≤ lim.concurrency) (h : Reachable (step lim) .init m) :
    LossFree lim m := by
  have hs := sound_of_reachable lim h
  have hord : Fifo.Ordered m.abs := Fifo.ordered_of_reachable (refines lim h)
  refine ⟨hord.started_nodup, hord.started_prefix, ?_, ?_, ?_, ?_, ?_, ?_, hord.finished_nodup,
    ?_, ?_, ?_⟩
  · intro task hwait
    have hacc : m.accepted = m.started ++ m.service.queue := hord.arrived_eq
    refine ⟨?_, hord.notMem_started hwait⟩
    rw [hacc]
    exact List.mem_append_right _ hwait
  · intro task hp
    have hacc := hs.notMem_of_queueFull hp
    exact ⟨hacc, fun hstart => hacc (hord.started_prefix.subset hstart)⟩
  · intro task ht o
    exact hs.settled_iff ht o
  · intro task ht
    refine ⟨fun hp hdone => ?_, hs.answered.pending task ht⟩
    obtain ⟨⟨t, o⟩, hmem, rfl⟩ := List.mem_map.1 hdone
    have heq := (hs.answered.settled _ hmem).symm.trans hp
    exact Promise.ofOutcome_ne_pending o (Option.some.inj heq)
  · intro e m' hstep task hne
    exact promise_step hstep hne
  · intro e m' task o m₀ hstep hc
    exact hs.completion hstep hc
  · have hlen := hord.length_arrived
    simp only [Machine.abs, Multiset.coe_card, List.length_map] at hlen
    rw [hlen, hs.active_eq]
  · intro huser hzero
    rcases hs.busy_of_inUserCode huser with hnil | hge
    · exact hnil
    · omega
  · intro hzero task queue hq
    exact hs.starts (by omega) hq

/-- One slot: the second task waits, the third is refused, and the failure of the first one
starts the second. -/
def failingRun : List (Event ℕ Unit String) :=
  [.add 0, .next, .await, .next, .add 1, .add 2, .complete 0 (.error "failed"), .next, .await,
    .next, .complete 1 (.ok ()), .next]

theorem lossFree_failingRun : ∃ m, run (step ⟨1, 1⟩) .init failingRun = some m ∧
    m.accepted = [0, 1] ∧ m.started = [0, 1] ∧ m.completions.length = 2 ∧ LossFree ⟨1, 1⟩ m :=
  ⟨_, rfl, rfl, rfl, rfl, lossFree_of_reachable (le_refl 1) ⟨failingRun, rfl⟩⟩

end Guarantees

end ProtostarNest.Queue
