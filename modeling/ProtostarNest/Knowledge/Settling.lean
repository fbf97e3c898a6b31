import ProtostarNest.Knowledge.Overload
import ProtostarNest.Lib.Execution

/-!
# Queued tasks settle

When no request whose next step stays possible is left alone, each task in the queue runs, ends and
leaves the queue, whatever else arrives and fails meanwhile.

* `Event.Of`, `Fair`: the steps of a request, and executions in which each request moves on;
* `Sys.Running`, `Sys.Waiting`, `Sys.Settled`: where a task is, with the steps that are left to it
  and the tasks that are before it in the line;
* `queue_step`: tasks leave the line at its front and come at its end;
* `running_settles`, `waiting_runs`: by induction on the steps left, and on the tasks before;
* `settles`: the two together.
-/

namespace ProtostarNest.Knowledge

open Transition Queue

/-- A step of the request `i`. -/
def Event.Of (i : ℕ) : Event → Prop
  | .resume j _ => j = i
  | .request _ => False

/-- A request whose next step stays possible makes it. -/
def Fair {cfg : Config} (x : Execution (step cfg)) : Prop := ∀ i, x.WeaklyFair (Event.Of i)

namespace Sys

variable (s : Sys) (j : ℕ)

/-- The task runs, and has at most `k` steps left in the queue. -/
def Running (k : ℕ) : Prop :=
  ∃ op, s.ops[j]? = some op ∧ op.queued = true ∧ j ∉ s.queue.queue ∧ op.work = k

/-- The task waits behind `m` others. -/
def Waiting (m : ℕ) : Prop :=
  ∃ op before behind, s.ops[j]? = some op ∧ op.queued = true ∧
    s.queue.queue = before ++ j :: behind ∧ before.length = m

/-- The task has ended and left the queue. -/
def Settled : Prop :=
  ∃ op result, s.ops[j]? = some op ∧ op.queued = false ∧ op.pc = .done result

end Sys

/-! ### The line -/

section Line

variable {cfg : Config} {w : World} {s s' : Sys} {e : Event}

theorem drain_queue (lim : Limits) (active : ℕ) (queue : List ℕ) :
    (QueueService.drain lim active queue).queue <:+ queue := by
  induction queue generalizing active with
  | nil => exact List.suffix_refl _
  | cons task queue ih =>
    rw [QueueService.drain]
    split_ifs
    · exact (ih (active + 1)).trans (List.suffix_cons task queue)
    · exact List.suffix_refl _

/-- `queue'` is `queue` without some tasks at its front and with new ones at its end, whose numbers
are `n` or more. -/
def Moves (n : ℕ) (queue queue' : List ℕ) : Prop :=
  ∃ new, (∀ j ∈ new, n ≤ j) ∧ queue' <:+ queue ++ new

theorem Moves.of_suffix {n : ℕ} {queue queue' : List ℕ} (h : queue' <:+ queue) :
    Moves n queue queue' := ⟨[], by simp, by rwa [List.append_nil]⟩

theorem Moves.trans {n n' : ℕ} {queue queue₁ queue₂ : List ℕ} (h : Moves n queue queue₁)
    (h' : Moves n' queue₁ queue₂) (hn : n ≤ n') : Moves n queue queue₂ := by
  obtain ⟨new, hnew, hsuffix⟩ := h
  obtain ⟨new', hnew', hsuffix'⟩ := h'
  refine ⟨new ++ new', fun j hj => ?_, ?_⟩
  · rcases List.mem_append.1 hj with hj | hj
    · exact hnew j hj
    · exact Nat.le_trans hn (hnew' j hj)
  · rw [← List.append_assoc]
    exact hsuffix'.trans (List.suffix_append_self_iff.2 hsuffix)

theorem enqueue_moves {queue queue' : QueueService ℕ} {task : ℕ}
    (h : queue.enqueue limits task = some queue') : Moves task queue.queue queue'.queue := by
  refine ⟨[task], by simp, ?_⟩
  unfold QueueService.enqueue at h
  split_ifs at h <;> obtain rfl := Option.some.inj h
  · exact drain_queue _ _ _
  · exact List.suffix_refl _

theorem add_moves (s : Sys) (pc : Pc) :
    Moves s.ops.length s.queue.queue (s.add pc).queue.queue := by
  unfold Sys.add
  split
  · exact .of_suffix (List.suffix_refl _)
  · rename_i hq
    exact enqueue_moves hq

theorem addAll_moves (user : User) (files : List MulterFile) (s : Sys) :
    Moves s.ops.length s.queue.queue (s.addAll user files).queue.queue := by
  induction files generalizing s with
  | nil => exact .of_suffix (List.suffix_refl _)
  | cons file files ih =>
    obtain ⟨op, hops, -⟩ := add_ops (s := s) (.processPut user file)
    refine (add_moves s _).trans (ih _) ?_
    rw [hops, List.length_append]
    omega

/-- **Tasks leave the line at its front and come at its end.** -/
theorem queue_step (hs : step cfg s e = some s') :
    Moves s.ops.length s.queue.queue s'.queue.queue := by
  have hsame : Moves s.ops.length s.queue.queue s.queue.queue := .of_suffix (List.suffix_refl _)
  cases e with
  | request r =>
    cases r with
    | replaceFile user id title file =>
      obtain rfl := Option.some.inj hs
      exact add_moves s _
    | updateDocStatusViaWebhook dto answers =>
      simp only [step, Sys.receive] at hs
      split_ifs at hs
      obtain rfl := Option.some.inj hs
      exact hsame
    | _ =>
      obtain rfl := Option.some.inj hs
      exact hsame
  | resume i env =>
    obtain ⟨-, op, hop, hres⟩ := step_resume_iff.1 hs
    cases hres with
    | accepted user files currentCount hpc =>
      unfold Sys.accept
      split_ifs
      · exact hsame
      · exact addAll_moves user files s
    | joined user tasks result hpc hresult => exact hsame
    | released result hpc hqueued => exact .of_suffix (drain_queue _ _ _)
    | called w pc hcall hadv => exact hsame

/-- A task that leaves the queue frees its slot for the first of the line. -/
theorem release_queue {queue : QueueService ℕ} (h : queue.Steady limits) {task : ℕ}
    {rest : List ℕ} (hq : queue.queue = task :: rest) : (queue.release limits).queue <:+ rest := by
  have hactive := h.active_le
  have hlt : queue.activeCount - 1 < limits.concurrency := by
    have hpos : 0 < limits.concurrency := by decide
    omega
  rw [QueueService.release, hq, QueueService.drain, if_pos hlt]
  exact drain_queue _ _ _

theorem waiting_nodup (h : Reachable (step cfg) (Sys.boot w) s) : s.queue.queue.Nodup := by
  obtain ⟨m, -, hm⟩ := queued_of_reachable h
  rw [← hm.service]
  exact (List.nodup_append.1 hm.nodup).2.1

/-- What is left of a line with `j` in it: `j` with some of those before it, or it has left. -/
theorem suffix_split {j : ℕ} {before rest queue : List ℕ} (h : queue <:+ before ++ j :: rest) :
    queue <:+ rest ∨ ∃ before', queue = before' ++ j :: rest ∧ before'.length ≤ before.length := by
  induction before with
  | nil =>
    rcases List.suffix_cons_iff.1 h with rfl | h
    · exact Or.inr ⟨[], rfl, Nat.le_refl _⟩
    · exact Or.inl h
  | cons task before ih =>
    rcases List.suffix_cons_iff.1 h with rfl | h
    · exact Or.inr ⟨task :: before, rfl, Nat.le_refl _⟩
    · rcases ih h with h | ⟨before', rfl, hle⟩
      · exact Or.inl h
      · exact Or.inr ⟨before', rfl, Nat.le_succ_of_le hle⟩

end Line

/-! ### Steps -/

section Steps

variable {cfg : Config} {w : World} {s s' : Sys} {e : Event} {j : ℕ}

theorem ops_of_not_of {op : Op} (hs : step cfg s e = some s') (he : ¬ e.Of j)
    (hop : s.ops[j]? = some op) : s'.ops[j]? = some op := by
  refine ops_of_ne hs ?_ hop
  rintro env rfl
  exact he rfl

/-- A task that does not wait does not come to wait. -/
theorem notMem_queue_step (hs : step cfg s e = some s') (hj : j < s.ops.length)
    (hwait : j ∉ s.queue.queue) : j ∉ s'.queue.queue := by
  obtain ⟨new, hnew, hsuffix⟩ := queue_step hs
  intro hmem
  rcases List.mem_append.1 (hsuffix.subset hmem) with hold | hadded
  · exact hwait hold
  · exact Nat.not_lt.2 (hnew j hadded) hj

/-- A settled task makes no step. -/
theorem Sys.Settled.not_of (h : s.Settled j) (hs : Knowledge.step cfg s e = some s') :
    ¬ e.Of j := by
  obtain ⟨op, result, hop, hq, hpc⟩ := h
  intro he
  cases e with
  | request r => exact he
  | resume i env =>
    obtain rfl : i = j := he
    have hres := resumes_of_step hop hs
    rcases hres.task (by rw [hpc]; trivial) with ⟨w', pc, hcall, -⟩ | ⟨value, -, hqueued, -⟩
    · rw [hpc] at hcall
      exact hcall
    · rw [hq] at hqueued
      cases hqueued

theorem Sys.Settled.step (h : s.Settled j) (hs : Knowledge.step cfg s e = some s') :
    s'.Settled j := by
  obtain ⟨op, result, hop, hrest⟩ := id h
  exact ⟨op, result, ops_of_not_of hs (h.not_of hs) hop, hrest⟩

/-- A running task goes on running while others make steps. -/
theorem Sys.Running.step {k : ℕ} (h : s.Running j k) (hs : Knowledge.step cfg s e = some s')
    (he : ¬ e.Of j) : s'.Running j k := by
  obtain ⟨op, hop, hq, hwait, hwork⟩ := h
  exact ⟨op, ops_of_not_of hs he hop, hq,
    notMem_queue_step hs (List.getElem?_eq_some_iff.1 hop).1 hwait, hwork⟩

/-- Its own step brings it nearer to its end. -/
theorem Sys.Running.own_step {k : ℕ} (hr : Reachable (Knowledge.step cfg) (Sys.boot w) s)
    (h : s.Running j k) (hs : Knowledge.step cfg s e = some s') (he : e.Of j) :
    s'.Settled j ∨ ∃ k', k' < k ∧ s'.Running j k' := by
  cases e with
  | request r => exact he.elim
  | resume i env =>
    obtain rfl : i = j := he
    obtain ⟨op, hop, hq, hwait, hwork⟩ := h
    have hi := (List.getElem?_eq_some_iff.1 hop).1
    have htask := queuesTasks_of_reachable hr op (List.mem_of_getElem? hop) hq
    rcases (resumes_of_step hop hs).task htask with ⟨w', pc, hcall, hadv, rfl⟩ | ⟨result, hdone, -, rfl⟩
    · obtain ⟨-, hrank⟩ := (advance_sound hadv).task htask hcall
      have hlt : ({ op with pc := pc } : Op).work < k := by
        rw [← hwork]
        simp only [Op.work, hq, if_true]
        omega
      exact Or.inr ⟨_, hlt, { op with pc := pc }, List.getElem?_set_self hi, hq, hwait, rfl⟩
    · exact Or.inl ⟨{ op with queued := false }, result, List.getElem?_set_self hi, rfl, hdone⟩

/-- A waiting task after a step that leaves a part of its line. -/
theorem waiting_or_running {op : Op} {before rest : List ℕ} (hop : s'.ops[j]? = some op)
    (hq : op.queued = true) (hline : s'.queue.queue <:+ before ++ j :: rest) (hj : j ∉ rest) :
    (∃ m, m ≤ before.length ∧ s'.Waiting j m) ∨ ∃ k, s'.Running j k := by
  rcases suffix_split hline with hrest | ⟨before', hline', hle⟩
  · exact Or.inr ⟨op.work, op, hop, hq, fun hmem => hj (hrest.subset hmem), rfl⟩
  · exact Or.inl ⟨before'.length, hle, op, before', rest, hop, hq, hline', rfl⟩

/-- No step puts a task before one that waits. -/
theorem Sys.Waiting.step {m : ℕ} (hr : Reachable (Knowledge.step cfg) (Sys.boot w) s)
    (h : s.Waiting j m) (hs : Knowledge.step cfg s e = some s') :
    (∃ m', m' ≤ m ∧ s'.Waiting j m') ∨ ∃ k, s'.Running j k := by
  obtain ⟨op, before, behind, hop, hq, hline, rfl⟩ := h
  have hmem : j ∈ s.queue.queue := by simp [hline]
  have he : ¬ e.Of j := by
    intro he
    cases e with
    | request r => exact he
    | resume i env =>
      obtain rfl : i = j := he
      exact (step_resume_iff.1 hs).1 hmem
  obtain ⟨new, hnew, hsuffix⟩ := queue_step hs
  rw [hline, List.append_assoc, List.cons_append] at hsuffix
  refine waiting_or_running (ops_of_not_of hs he hop) hq hsuffix ?_
  intro hj
  rcases List.mem_append.1 hj with hj | hj
  · have hnodup := waiting_nodup hr
    rw [hline] at hnodup
    exact (List.nodup_cons.1 (List.nodup_append.1 hnodup).2.1).1 hj
  · exact Nat.not_lt.2 (hnew j hj) (List.getElem?_eq_some_iff.1 hop).1

/-- A task leaves the queue by its own last step only. -/
theorem release_of_settled {r k : ℕ} (hr : Reachable (Knowledge.step cfg) (Sys.boot w) s)
    (hrun : s.Running r k) (hs : Knowledge.step cfg s e = some s') (hsettled : s'.Settled r) :
    ∃ op, s' = s.release r op := by
  obtain ⟨op, hop, hq, -, -⟩ := hrun
  obtain ⟨op', result, hop', hq', -⟩ := hsettled
  -- what is queued in `s'` has not settled
  have hflag : ∀ {o : Op}, s'.ops[r]? = some o → o.queued ≠ true := by
    intro o ho htrue
    rw [hop'] at ho
    obtain rfl := Option.some.inj ho
    rw [hq'] at htrue
    cases htrue
  by_cases he : e.Of r
  · cases e with
    | request r' => exact he.elim
    | resume i env =>
      obtain rfl : i = r := he
      have htask := queuesTasks_of_reachable hr op (List.mem_of_getElem? hop) hq
      rcases (resumes_of_step hop hs).task htask with ⟨w', pc, -, -, rfl⟩ | ⟨result, -, -, rfl⟩
      · have hself : (s.called i op w' pc).ops[i]? = some { op with pc := pc } :=
          List.getElem?_set_self (List.getElem?_eq_some_iff.1 hop).1
        exact absurd hq (hflag (o := { op with pc := pc }) hself)
      · exact ⟨op, rfl⟩
  · exact absurd hq (hflag (ops_of_not_of hs he hop))

/-- When a running task settles, a task less is before each that waits. -/
theorem Sys.Waiting.step_of_settled {m r k : ℕ}
    (hr : Reachable (Knowledge.step cfg) (Sys.boot w) s) (h : s.Waiting j m)
    (hrun : s.Running r k) (hs : Knowledge.step cfg s e = some s') (hsettled : s'.Settled r) :
    (∃ m', m' < m ∧ s'.Waiting j m') ∨ ∃ k, s'.Running j k := by
  obtain ⟨op₀, rfl⟩ := release_of_settled hr hrun hs hsettled
  obtain ⟨op, before, behind, hop, hq, hline, rfl⟩ := h
  have hne : r ≠ j := by
    rintro rfl
    obtain ⟨-, -, -, hwait, -⟩ := hrun
    exact hwait (by simp [hline])
  have hopj : (s.release r op₀).ops[j]? = some op := by
    rw [Sys.release, List.getElem?_set_ne hne]
    exact hop
  have hnodup := waiting_nodup hr
  rw [hline] at hnodup
  have hj := (List.nodup_cons.1 (List.nodup_append.1 hnodup).2.1).1
  have hsteady := steady_of_reachable hr
  cases before with
  | nil =>
    have hrest := release_queue hsteady hline
    exact Or.inr ⟨op.work, op, hopj, hq, fun hmem => hj (hrest.subset hmem), rfl⟩
  | cons task before =>
    have hrest := release_queue hsteady hline
    rcases waiting_or_running hopj hq hrest hj with ⟨m, hm, hwaiting⟩ | hrunning
    · exact Or.inl ⟨m, Nat.lt_succ_of_le hm, hwaiting⟩
    · exact Or.inr hrunning

end Steps

/-! ### Executions -/

section Executions

variable {cfg : Config} {w : World} {x : Execution (step cfg)}

theorem reachable_state (h : Reachable (step cfg) (Sys.boot w) (x.state 0)) :
    ∀ n, Reachable (step cfg) (Sys.boot w) (x.state n) :=
  Execution.invariant (fun _ _ _ hs hst => hs.tail hst) h

theorem meets_reachable (h : Reachable (step cfg) (Sys.boot w) (x.state 0)) :
    x.Meets fun s _ => Reachable (step cfg) (Sys.boot w) s := fun n _ _ => reachable_state h n

theorem settled_stable (j : ℕ) : x.Stable fun s => s.Settled j :=
  .of_step fun _ _ _ hs hst => hs.step hst

/-- A running task settles, by induction on the steps that are left to it. -/
theorem running_settles (h : Reachable (step cfg) (Sys.boot w) (x.state 0)) (hfair : Fair x)
    (j k : ℕ) : x.LeadsTo (fun s => s.Running j k) fun s => s.Settled j := by
  refine Execution.LeadsTo.of_rank (P := fun k (s : Sys) => s.Running j k) (fun k => ?_) k
  intro n hrun
  have hen : ∀ m, n ≤ m → (x.state m).Running j k →
      Enabled (step cfg) (Event.Of j) (x.state m) := by
    rintro m - ⟨op, hop, hq, hwait, -⟩
    obtain ⟨env, t, hs, -⟩ := progress_of_running (reachable_state h m) hop hq hwait
    exact ⟨.resume j env, t, rfl, hs⟩
  obtain ⟨m, e, hm, he, hlabel, hrun⟩ :=
    Execution.WeaklyFair.exists_step (hfair j) (P := fun s => s.Running j k)
      (fun s e t hs he hst => hs.step hst he) hrun ⟨n, Nat.le_refl n, hen⟩
  exact ⟨m + 1, by omega, hrun.own_step (reachable_state h m) (x.next m e hlabel) he⟩

/-- A waiting task comes to run, by induction on the tasks before it: one of those that run while it
waits settles. -/
theorem waiting_runs (h : Reachable (step cfg) (Sys.boot w) (x.state 0)) (hfair : Fair x)
    (j m : ℕ) : x.LeadsTo (fun s => s.Waiting j m) fun s => ∃ k, s.Running j k := by
  refine Execution.LeadsTo.of_rank (P := fun m (s : Sys) => s.Waiting j m) (fun m => ?_) m
  intro n hwaiting
  obtain ⟨op, -, -, hop, hq, -⟩ := id hwaiting
  obtain ⟨r, opr, hopr, hqr, hwait⟩ :=
    exists_running (reachable_state h n) (List.mem_of_getElem? hop) hq
  let stay : Sys → Prop := fun s => s.Waiting j m ∧ ∃ k, s.Running r k
  have hleads : x.LeadsTo stay fun s => s.Settled r :=
    fun n hn => hn.2.elim fun k hk => running_settles h hfair r k n hk
  have hkeep : x.Unless stay
      fun s => (∃ k, s.Running j k) ∨ ∃ m', m' < m ∧ s.Waiting j m' := by
    refine .of_step (meets_reachable h) ?_
    rintro s e t ⟨hw, k, hrun⟩ hr hs
    have hr' : t.Settled r ∨ ∃ k, t.Running r k := by
      by_cases he : e.Of r
      · rcases hrun.own_step hr hs he with hsettled | ⟨k', -, hk'⟩
        · exact Or.inl hsettled
        · exact Or.inr ⟨k', hk'⟩
      · exact Or.inr ⟨k, hrun.step hs he⟩
    rcases hr' with hsettled | hrun'
    · exact Or.inr (hw.step_of_settled hr hrun hs hsettled).symm
    · rcases hw.step hr hs with ⟨m', hle, hw'⟩ | hrunning
      · rcases Nat.lt_or_eq_of_le hle with hlt | rfl
        · exact Or.inr (Or.inr ⟨m', hlt, hw'⟩)
        · exact Or.inl ⟨hw', hrun'⟩
      · exact Or.inr (Or.inl hrunning)
  obtain ⟨n', hn', hQ | ⟨⟨-, k, hrun⟩, hsettled⟩⟩ :=
    hleads.of_unless hkeep n ⟨hwaiting, opr.work, opr, hopr, hqr, hwait, rfl⟩
  · exact ⟨n', hn', hQ⟩
  · obtain ⟨op₁, hop₁, hq₁, -⟩ := hrun
    obtain ⟨op₂, -, hop₂, hq₂, -⟩ := hsettled
    rw [hop₁] at hop₂
    obtain rfl := Option.some.inj hop₂
    rw [hq₁] at hq₂
    cases hq₂

/-- **A task comes to its end and out of the queue.** -/
theorem settles (h : Reachable (step cfg) (Sys.boot w) (x.state 0)) (hfair : Fair x) {n j : ℕ}
    {op : Op} (hop : (x.state n).ops[j]? = some op)
    (hdone : op.queued = false → ∃ result, op.pc = .done result) :
    ∃ m, n ≤ m ∧ (x.state m).Settled j := by
  cases hq : op.queued with
  | false =>
    obtain ⟨result, hpc⟩ := hdone hq
    exact ⟨n, Nat.le_refl n, op, result, hop, hq, hpc⟩
  | true =>
    by_cases hwait : j ∈ (x.state n).queue.queue
    · obtain ⟨before, behind, hline⟩ := List.append_of_mem hwait
      obtain ⟨m, hm, k, hrun⟩ :=
        waiting_runs h hfair j before.length n ⟨op, before, behind, hop, hq, hline, rfl⟩
      obtain ⟨m', hm', hsettled⟩ := running_settles h hfair j k m hrun
      exact ⟨m', Nat.le_trans hm hm', hsettled⟩
    · exact running_settles h hfair j op.work n ⟨op, hop, hq, hwait, rfl⟩

end Executions

end ProtostarNest.Knowledge
