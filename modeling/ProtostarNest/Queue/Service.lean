import Mathlib.Logic.Function.Basic
import Mathlib.Data.List.Basic
import ProtostarNest.Constants
import ProtostarNest.Lib.Transition

/-!
# `QueueService`

Tasks with bounded parallelism and a bounded waiting line.  `add` and the `finally` block of a
finished task call `next`, `next` calls a task and then itself, and the synchronous part of a
task may call `add` again or throw; so the service runs on the JavaScript call stack, and one
label below is the piece of code up to the next point where the environment has a choice.

* `QueueService`, `Limits`: the fields of the class;
* `Machine`: the service with the call stack, the promises that `add` returned, the tasks
  suspended at `await task()`, and the logs of what happened;
* `step`: `add`, a call of `next`, the end of a task's synchronous part (with its promise or with
  an exception) and the resumption of a suspended task;
* `enqueue`, `release`: the same for tasks that suspend before doing anything with the queue,
  in one piece; `enqueue_run` and `release_run` show that they are runs of the machine;
* `Steady`, `load`: such tasks are refused only when `concurrency + maxPending` of them are there.

A task stands for its wrapper: each call of `add` makes its own.
-/

namespace ProtostarNest.Queue

open Transition

/-- `concurrency` and `maxPending`. -/
structure Limits where
  concurrency : ℕ
  maxPending : ℕ

/-- The values that the application uses. -/
def limits : Limits := ⟨CONCURRENCY, MAX_PENDING⟩

/-- The fields of the service that change. -/
structure QueueService (τ : Type*) where
  queue : List τ
  activeCount : ℕ
  deriving DecidableEq

namespace QueueService

variable {τ : Type*} (lim : Limits) (s : QueueService τ)

/-- The service after its constructor. -/
def init : QueueService τ := ⟨[], 0⟩

def isBusy : Bool := s.queue.length ≥ lim.maxPending

/-- `{ active, pending, concurrency, maxPending }`. -/
structure Status where
  active : ℕ
  pending : ℕ
  concurrency : ℕ
  maxPending : ℕ
  deriving DecidableEq

def getStatus : Status := ⟨s.activeCount, s.queue.length, lim.concurrency, lim.maxPending⟩

end QueueService

/-- A function on the call stack: `next` about to run, or the synchronous part of a task. -/
inductive Frame (τ : Type*)
  | next
  | body (task : τ)
  deriving DecidableEq

/-- Why the promise of an `add` is rejected: the `Error('System queue is full')` of `add`, or
what the task itself threw. -/
inductive Reason (ε : Type*)
  | queueFull
  | thrown (e : ε)
  deriving DecidableEq

def queueFullMessage : String := "System queue is full"

inductive Promise (α ε : Type*)
  | pending
  | fulfilled (v : α)
  | rejected (r : Reason ε)
  deriving DecidableEq

/-- The promise that a task's outcome leaves: `resolve(result)` or `reject(error)`. -/
def Promise.ofOutcome {α ε : Type*} : Except ε α → Promise α ε
  | .ok v => .fulfilled v
  | .error e => .rejected (.thrown e)

structure Machine (τ α ε : Type*) where
  service : QueueService τ
  stack : List (Frame τ)
  suspended : List τ
  promises : τ → Option (Promise α ε)
  accepted : List τ
  started : List τ
  completions : List (τ × Except ε α)

/-- The choices of the environment, and the calls of `next` that wait on the stack. -/
inductive Event (τ α ε : Type*)
  | add (task : τ)
  | next
  | await
  | throwSync (e : ε)
  | complete (task : τ) (outcome : Except ε α)

namespace Machine

variable {τ α ε : Type*}

def init : Machine τ α ε := ⟨QueueService.init, [], [], fun _ => none, [], [], []⟩

/-- The code that runs is not the service's own: the event loop or the body of a task. -/
def InUserCode (m : Machine τ α ε) : Prop := m.stack.head? ≠ some .next

instance [DecidableEq τ] (m : Machine τ α ε) : Decidable m.InUserCode :=
  inferInstanceAs (Decidable (_ ≠ _))

variable [DecidableEq τ] (lim : Limits)

/-- The executor of the promise that `add` returns. -/
def add (m : Machine τ α ε) (task : τ) : Machine τ α ε :=
  if m.service.queue.length ≥ lim.maxPending then
    { m with promises := Function.update m.promises task (some (.rejected .queueFull)) }
  else
    { m with
      promises := Function.update m.promises task (some .pending)
      accepted := m.accepted ++ [task]
      service := { m.service with queue := m.service.queue ++ [task] }
      stack := if m.service.activeCount < lim.concurrency then .next :: m.stack else m.stack }

/-- One call of `next`: the recursive call stays on the stack below the task it started. -/
def next (m : Machine τ α ε) : Machine τ α ε :=
  if m.service.activeCount < lim.concurrency then
    match m.service.queue with
    | [] => m
    | task :: queue =>
        { m with
          service := ⟨queue, m.service.activeCount + 1⟩
          stack := .body task :: .next :: m.stack
          started := m.started ++ [task] }
  else m

/-- The end of a wrapped task: its promise is settled and `finally` runs. -/
def settle (m : Machine τ α ε) (task : τ) (outcome : Except ε α) : Machine τ α ε :=
  { m with
    promises := Function.update m.promises task (some (Promise.ofOutcome outcome))
    completions := m.completions ++ [(task, outcome)]
    service := { m.service with activeCount := m.service.activeCount - 1 }
    stack := .next :: m.stack }

end Machine

/-- One label. Only user code adds tasks, and only an empty stack resumes a suspended one. -/
def step {τ α ε : Type*} [DecidableEq τ] (lim : Limits) (m : Machine τ α ε) :
    Event τ α ε → Option (Machine τ α ε)
  | .add task => if m.InUserCode ∧ m.promises task = none then some (m.add lim task) else none
  | .next =>
      match m.stack with
      | .next :: stack => some ({ m with stack := stack }.next lim)
      | _ => none
  | .await =>
      match m.stack with
      | .body task :: stack => some { m with stack := stack, suspended := m.suspended ++ [task] }
      | _ => none
  | .throwSync e =>
      match m.stack with
      | .body task :: stack => some ({ m with stack := stack }.settle task (.error e))
      | _ => none
  | .complete task outcome =>
      if m.stack = [] ∧ task ∈ m.suspended then
        some ({ m with suspended := m.suspended.erase task }.settle task outcome)
      else none

/-! ### Tasks that suspend at once -/

namespace QueueService

variable {τ : Type*} (lim : Limits)

/-- `next` and its recursive calls, when each started task suspends at once. -/
def drain : ℕ → List τ → QueueService τ
  | active, [] => ⟨[], active⟩
  | active, task :: queue =>
      if active < lim.concurrency then drain (active + 1) queue else ⟨task :: queue, active⟩

/-- `add` of such a task, `none` when the queue is full. -/
def enqueue (s : QueueService τ) (task : τ) : Option (QueueService τ) :=
  if s.queue.length ≥ lim.maxPending then none
  else if s.activeCount < lim.concurrency then
    some (drain lim s.activeCount (s.queue ++ [task]))
  else some { s with queue := s.queue ++ [task] }

/-- The `finally` block of a finished task. -/
def release (s : QueueService τ) : QueueService τ := drain lim (s.activeCount - 1) s.queue

/-- The service while no code of it runs: tasks wait only behind a full set of running ones. -/
structure Steady (s : QueueService τ) : Prop where
  active_le : s.activeCount ≤ lim.concurrency
  queue_le : s.queue.length ≤ lim.maxPending
  busy : s.queue ≠ [] → s.activeCount = lim.concurrency

/-- The tasks that run and those that wait. -/
def load (s : QueueService τ) : ℕ := s.activeCount + s.queue.length

variable {lim} {s s' : QueueService τ} {task : τ}

theorem Steady.load_le (h : s.Steady lim) : s.load ≤ lim.concurrency + lim.maxPending :=
  Nat.add_le_add h.active_le h.queue_le

/-- `add` refuses a task only when everything is taken. -/
theorem Steady.load_of_refused (h : s.Steady lim) (hpos : 0 < lim.maxPending)
    (hs : s.enqueue lim task = none) : s.load = lim.concurrency + lim.maxPending := by
  have hqueue := h.queue_le
  unfold enqueue at hs
  split_ifs at hs with hfull
  have hne : s.queue ≠ [] := by
    intro hnil
    rw [hnil, List.length_nil] at hfull
    omega
  have hbusy := h.busy hne
  unfold load
  omega

/-- An accepted task is one more that runs or waits. -/
theorem Steady.enqueue (h : s.Steady lim) (hs : s.enqueue lim task = some s') :
    s'.Steady lim ∧ s'.load = s.load + 1 := by
  unfold QueueService.enqueue at hs
  split_ifs at hs with hfull hfree
  · have hnil : s.queue = [] := by
      by_contra hne
      have hbusy := h.busy hne
      omega
    rw [hnil, List.nil_append, drain, if_pos hfree, drain] at hs
    obtain rfl := Option.some.inj hs
    refine ⟨⟨hfree, Nat.zero_le _, fun hne => absurd rfl hne⟩, ?_⟩
    simp [load, hnil]
  · obtain rfl := Option.some.inj hs
    have hactive := h.active_le
    refine ⟨⟨hactive, ?_, fun _ => Nat.le_antisymm hactive (Nat.not_lt.1 hfree)⟩, ?_⟩
    · simp only [List.length_append, List.length_singleton]
      omega
    · simp [load, Nat.add_assoc]

end QueueService

section Runs

variable {τ α ε : Type*} [DecidableEq τ] (lim : Limits)

/-- The accepted tasks that have not completed, when no function is on the stack. -/
def Machine.unfinished (m : Machine τ α ε) : List τ := m.suspended ++ m.service.queue

/-- A `next` on top of the stack runs until it returns, with `drain` as its effect; the tasks that
it starts go from the front of the queue to the suspended ones. -/
theorem drain_run (queue : List τ) (m : Machine τ α ε) (stack : List (Frame τ))
    (hq : m.service.queue = queue) (hs : m.stack = .next :: stack) :
    ∃ es m', run (step lim) m es = some m' ∧ m'.stack = stack ∧
      m'.service = QueueService.drain lim m.service.activeCount queue ∧
      m'.promises = m.promises ∧ m'.unfinished = m.unfinished := by
  induction queue generalizing m with
  | nil =>
    refine ⟨[.next], { m with stack := stack }, ?_, rfl, ?_, rfl, rfl⟩
    · rw [run_cons_some _ _ (by simp only [step, hs]; rfl), run_nil, Machine.next]
      simp [hq]
    · show m.service = ⟨[], m.service.activeCount⟩
      rw [← hq]
  | cons task queue ih =>
    rcases Nat.lt_or_ge m.service.activeCount lim.concurrency with hlt | hge
    · let m₁ : Machine τ α ε :=
        { m with
          service := ⟨queue, m.service.activeCount + 1⟩
          stack := .next :: stack
          started := m.started ++ [task]
          suspended := m.suspended ++ [task] }
      have hrun : run (step lim) m [.next, .await] = some m₁ := by
        rw [run_cons_some _ _ (by simp only [step, hs]; rfl), Machine.next]
        simp only [hlt, if_true, hq]
        rfl
      have hunf : m₁.unfinished = m.unfinished := by
        simp only [Machine.unfinished, m₁, hq, List.append_assoc, List.singleton_append]
      obtain ⟨es, m', hes, hstack, hservice, hpromises, hunf'⟩ := ih m₁ rfl rfl
      refine ⟨_, m', (run_append_eq_some _).2 ⟨m₁, hrun, hes⟩, hstack, ?_, hpromises,
        hunf'.trans hunf⟩
      rw [hservice, QueueService.drain, if_pos hlt]
    · refine ⟨[.next], { m with stack := stack }, ?_, rfl, ?_, rfl, rfl⟩
      · rw [run_cons_some _ _ (by simp only [step, hs]; rfl), run_nil, Machine.next]
        simp [Nat.not_lt.2 hge]
      · rw [QueueService.drain, if_neg (Nat.not_lt.2 hge)]
        show m.service = ⟨task :: queue, m.service.activeCount⟩
        rw [← hq]

/-- `enqueue` is what an accepted `add` of a task that suspends at once does. -/
theorem enqueue_run {m : Machine τ α ε} {task : τ} {s : QueueService τ} (hidle : m.stack = [])
    (hnew : m.promises task = none) (h : m.service.enqueue lim task = some s) :
    ∃ es m', run (step lim) m (.add task :: es) = some m' ∧ m'.stack = [] ∧ m'.service = s ∧
      m'.promises = Function.update m.promises task (some .pending) ∧
      m'.unfinished = m.unfinished ++ [task] := by
  have hadd : step lim m (.add task) = some (m.add lim task) :=
    if_pos ⟨by simp [Machine.InUserCode, hidle], hnew⟩
  unfold QueueService.enqueue at h
  split_ifs at h with hfull hfree
  · cases h
    obtain ⟨es, m', hrun, hstack, hservice, hpromises, hunf⟩ :=
      drain_run lim (m.service.queue ++ [task]) (m.add lim task) []
        (by simp [Machine.add, hfull]) (by simp [Machine.add, hfull, hfree, hidle])
    refine ⟨es, m', by rw [run_cons_some _ _ hadd, hrun], hstack, ?_, ?_, ?_⟩
    · rw [hservice]; simp [Machine.add, hfull]
    · rw [hpromises]; simp [Machine.add, hfull]
    · rw [hunf]; simp [Machine.unfinished, Machine.add, hfull]
  · cases h
    refine ⟨[], m.add lim task, by rw [run_cons_some _ _ hadd, run_nil], ?_, ?_, ?_, ?_⟩ <;>
      simp [Machine.unfinished, Machine.add, hfull, hfree, hidle]

/-- A refused `add` rejects its promise and changes nothing else. -/
theorem enqueue_none_run {m : Machine τ α ε} {task : τ} (hidle : m.stack = [])
    (hnew : m.promises task = none) (h : m.service.enqueue lim task = none) :
    ∃ m', step lim m (.add task) = some m' ∧ m'.stack = [] ∧ m'.service = m.service ∧
      m'.promises = Function.update m.promises task (some (.rejected .queueFull)) ∧
      m'.unfinished = m.unfinished := by
  unfold QueueService.enqueue at h
  split_ifs at h with hfull
  refine ⟨m.add lim task, if_pos ⟨by simp [Machine.InUserCode, hidle], hnew⟩, ?_⟩
  simp [Machine.unfinished, Machine.add, hfull, hidle]

/-- `release` is what the resumption of a suspended task does. -/
theorem release_run {m : Machine τ α ε} {task : τ} (hidle : m.stack = [])
    (ht : task ∈ m.suspended) (outcome : Except ε α) :
    ∃ es m', run (step lim) m (.complete task outcome :: es) = some m' ∧ m'.stack = [] ∧
      m'.service = m.service.release lim ∧
      m'.promises = Function.update m.promises task (some (Promise.ofOutcome outcome)) ∧
      m'.unfinished = m.unfinished.erase task := by
  have hcomplete : step lim m (.complete task outcome) =
      some ({ m with suspended := m.suspended.erase task }.settle task outcome) :=
    if_pos ⟨hidle, ht⟩
  obtain ⟨es, m', hrun, hstack, hservice, hpromises, hunf⟩ :=
    drain_run lim m.service.queue
      ({ m with suspended := m.suspended.erase task }.settle task outcome) []
      rfl (by simp [Machine.settle, hidle])
  refine ⟨es, m', by rw [run_cons_some _ _ hcomplete, hrun], hstack, hservice, ?_, ?_⟩
  · rw [hpromises]; simp [Machine.settle]
  · rw [hunf, Machine.unfinished, Machine.unfinished, List.erase_append_left _ ht]
    simp [Machine.settle]

end Runs

end ProtostarNest.Queue
