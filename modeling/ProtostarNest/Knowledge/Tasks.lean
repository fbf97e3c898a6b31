import ProtostarNest.Knowledge.System
import ProtostarNest.Queue.Order

/-!
# The requests' tasks in the work queue

`Knowledge.System` uses the queue through `enqueue` and `release`.  Here each of its steps is a
run of the queue machine, in which the tasks are the positions of the requests, so the machine's
invariants hold of the server.

* `Queued`: the machine and the server agree on the service and on the unfinished tasks;
* `queued_step`: a step of the server is a run of the machine;
* `slots_of_reachable`: the tasks that run are as many as the counter says, at most `CONCURRENCY`,
  and all slots are taken while a task waits.
-/

namespace ProtostarNest.Knowledge

open Transition Queue

/-- The queue machine whose tasks are requests. -/
abbrev TaskMachine := Machine ℕ Reply Exception

structure Queued (s : Sys) (m : TaskMachine) : Prop where
  idle : m.stack = []
  service : m.service = s.queue
  nodup : m.unfinished.Nodup
  mem_unfinished : ∀ i, i ∈ m.unfinished ↔ (s.ops.map Op.queued)[i]? = some true
  fresh : ∀ i, s.ops.length ≤ i → m.promises i = none

section Simulation

variable {cfg : Config} {s s' : Sys} {m : TaskMachine}

/-- The queue sees nothing of a step that keeps its service and the tasks that are in it. -/
theorem Queued.congr (h : Queued s m) (hqueue : s'.queue = s.queue)
    (hops : s'.ops.map Op.queued = s.ops.map Op.queued) : Queued s' m := by
  have hlen : s'.ops.length = s.ops.length := by
    rw [← List.length_map (f := Op.queued), hops, List.length_map]
  refine ⟨h.idle, h.service.trans hqueue.symm, h.nodup, ?_, ?_⟩
  · rw [hops]
    exact h.mem_unfinished
  · rw [hlen]
    exact h.fresh

theorem map_queued_set {ops : List Op} {i : ℕ} {op : Op} (hop : ops[i]? = some op) (pc : Pc) :
    (ops.set i { op with pc := pc }).map Op.queued = ops.map Op.queued := by
  obtain ⟨hi, rfl⟩ := List.getElem?_eq_some_iff.1 hop
  rw [List.map_set]
  have hi' : i < (ops.map Op.queued).length := by rw [List.length_map]; exact hi
  have hget : (ops.map Op.queued)[i] = ops[i].queued := List.getElem_map _
  rw [show ({ ops[i] with pc := pc } : Op).queued = (ops.map Op.queued)[i] from hget.symm]
  exact List.set_getElem_self hi'

theorem getElem?_concat_eq_true (l : List Bool) (b : Bool) (i : ℕ) :
    (l ++ [b])[i]? = some true ↔ l[i]? = some true ∨ (i = l.length ∧ b = true) := by
  rcases Nat.lt_trichotomy i l.length with hlt | rfl | hgt
  · rw [List.getElem?_append_left hlt]
    simp [Nat.ne_of_lt hlt]
  · simp
  · have hne : i ≠ l.length := Nat.ne_of_gt hgt
    rw [List.getElem?_eq_none (Nat.le_of_lt hgt), List.getElem?_eq_none (by simp; omega)]
    simp [hne]

theorem Queued.spawn (h : Queued s m) (pc : Pc) : Queued (s.spawn pc) m := by
  have hflags : (s.spawn pc).ops.map Op.queued = s.ops.map Op.queued ++ [false] := List.map_append
  refine ⟨h.idle, h.service, h.nodup, fun i => ?_, fun i hi => ?_⟩
  · rw [hflags, h.mem_unfinished, getElem?_concat_eq_true]
    simp
  · refine h.fresh i (Nat.le_trans ?_ hi)
    simp [Sys.spawn]

theorem Queued.add (h : Queued s m) (pc : Pc) :
    ∃ es m', run (Queue.step limits) m es = some m' ∧ Queued (s.add pc) m' := by
  have hnew : m.promises s.ops.length = none := h.fresh _ (Nat.le_refl _)
  unfold Sys.add
  cases hq : s.queue.enqueue limits s.ops.length with
  | none =>
    rw [← h.service] at hq
    obtain ⟨m', hstep, hstack, hservice, hpromises, hunf⟩ :=
      enqueue_none_run limits h.idle hnew hq
    refine ⟨[.add s.ops.length], m', by rw [run_cons_some _ _ hstep, run_nil], ?_⟩
    have hspawn := h.spawn (.throw (.Error queueFullMessage))
    refine ⟨hstack, hservice.trans hspawn.service, ?_, ?_, ?_⟩
    · rw [hunf]; exact hspawn.nodup
    · rw [hunf]; exact hspawn.mem_unfinished
    · intro i hi
      have hne : i ≠ s.ops.length := by
        simp only [Sys.spawn, List.length_append, List.length_singleton] at hi
        omega
      rw [hpromises, Function.update_of_ne hne]
      exact hspawn.fresh i hi
  | some queue =>
    rw [← h.service] at hq
    obtain ⟨es, m', hrun, hstack, hservice, hpromises, hunf⟩ := enqueue_run limits h.idle hnew hq
    refine ⟨_, m', hrun, hstack, hservice, ?_, fun i => ?_, fun i hi => ?_⟩
    · rw [hunf]
      refine List.nodup_append.2 ⟨h.nodup, List.nodup_singleton _, ?_⟩
      rintro i hi j hj rfl
      obtain rfl := List.mem_singleton.1 hj
      have hlt := (List.getElem?_eq_some_iff.1 ((h.mem_unfinished _).1 hi)).1
      rw [List.length_map] at hlt
      exact Nat.lt_irrefl _ hlt
    · rw [hunf, List.mem_append, h.mem_unfinished, List.mem_singleton, List.map_append,
        List.map_singleton, getElem?_concat_eq_true, List.length_map]
      simp
    · rw [List.length_append, List.length_singleton] at hi
      rw [hpromises, Function.update_of_ne (by omega)]
      exact h.fresh i (by omega)

theorem Queued.addAll (h : Queued s m) (user : User) (files : List MulterFile) :
    ∃ es m', run (Queue.step limits) m es = some m' ∧ Queued (s.addAll user files) m' := by
  induction files generalizing s m with
  | nil => exact ⟨[], m, rfl, h⟩
  | cons file files ih =>
    obtain ⟨es, m₁, hrun, h₁⟩ := h.add (.processPut user file)
    obtain ⟨es', m', hrun', h'⟩ := ih h₁
    exact ⟨es ++ es', m', (run_append_eq_some _).2 ⟨m₁, hrun, hrun'⟩, h'⟩

/-- A finished task that does not wait is suspended in the machine and completes there. -/
theorem Queued.release (h : Queued s m) {i : ℕ} {op : Op} (result : Except Exception Reply)
    (hop : s.ops[i]? = some op) (hwait : i ∉ s.queue.queue) (hqueued : op.queued = true) :
    ∃ es m', run (Queue.step limits) m (.complete i result :: es) = some m' ∧
      Queued (s.release i op) m' := by
  have hflag : (s.ops.map Op.queued)[i]? = some true := by
    rw [List.getElem?_map, hop, Option.map_some, hqueued]
  have hsusp : i ∈ m.suspended := by
    rcases List.mem_append.1 ((h.mem_unfinished i).2 hflag) with hmem | hmem
    · exact hmem
    · rw [h.service] at hmem
      exact absurd hmem hwait
  obtain ⟨es, m', hrun, hstack, hservice, hpromises, hunf⟩ :=
    release_run limits h.idle hsusp result
  have hi := (List.getElem?_eq_some_iff.1 hop).1
  have hlen : (s.release i op).ops.length = s.ops.length := List.length_set
  refine ⟨es, m', hrun, hstack, ?_, ?_, fun j => ?_, fun j hj => ?_⟩
  · rw [hservice, h.service]
    rfl
  · rw [hunf]
    exact h.nodup.erase i
  · have hflags : (s.release i op).ops.map Op.queued = (s.ops.map Op.queued).set i false :=
      List.map_set
    rw [hunf, h.nodup.mem_erase_iff, h.mem_unfinished, hflags]
    by_cases hj : i = j
    · subst hj
      rw [List.getElem?_set_self (by rw [List.length_map]; exact hi)]
      simp
    · rw [List.getElem?_set_ne hj]
      exact ⟨fun hand => hand.2, fun hget => ⟨Ne.symm hj, hget⟩⟩
  · rw [hlen] at hj
    rw [hpromises, Function.update_of_ne (by omega)]
    exact h.fresh j hj

/-- **A step of the server is a run of the queue machine.** -/
theorem queued_step {e : Event} (h : Queued s m) (hs : step cfg s e = some s') :
    ∃ es m', run (Queue.step limits) m es = some m' ∧ Queued s' m' := by
  cases e with
  | request r =>
    cases r with
    | replaceFile user id title file =>
      obtain rfl := Option.some.inj hs
      exact h.add _
    | updateDocStatusViaWebhook dto answers =>
      simp only [step, Sys.receive] at hs
      split_ifs at hs
      obtain rfl := Option.some.inj hs
      exact ⟨[], m, rfl, h.spawn _⟩
    | _ =>
      obtain rfl := Option.some.inj hs
      exact ⟨[], m, rfl, h.spawn _⟩
  | resume i env =>
    obtain ⟨hwait, op, hop, hres⟩ := step_resume_iff.1 hs
    cases hres with
    | accepted user files currentCount hpc =>
      unfold Sys.accept
      split_ifs with hlimit
      · exact ⟨[], m, rfl, h.congr rfl (map_queued_set hop _)⟩
      · obtain ⟨es, m', hrun, h'⟩ := h.addAll user files
        obtain ⟨tasks, htasks, -⟩ := addAll_ops (s := s) user files
        have hop' : (s.addAll user files).ops[i]? = some op := by
          rw [htasks, List.getElem?_append_left (List.getElem?_eq_some_iff.1 hop).1]
          exact hop
        exact ⟨es, m', hrun, h'.congr rfl (map_queued_set hop' _)⟩
    | joined user tasks result hpc hresult =>
      exact ⟨[], m, rfl, h.congr rfl (map_queued_set hop _)⟩
    | released result hpc hqueued =>
      obtain ⟨es, m', hrun, h'⟩ := h.release result hop hwait hqueued
      exact ⟨_, m', hrun, h'⟩
    | called w pc hcall hadv => exact ⟨[], m, rfl, h.congr rfl (map_queued_set hop _)⟩

theorem queued_of_reachable {w : World} (h : Reachable (step cfg) (Sys.boot w) s) :
    ∃ m : TaskMachine, Reachable (Queue.step limits) .init m ∧ Queued s m := by
  have hboot : Queued (Sys.boot w) (.init : TaskMachine) :=
    ⟨rfl, rfl, List.nodup_nil, fun i => by simp [Machine.unfinished, Machine.init, Sys.boot,
      QueueService.init], fun _ _ => rfl⟩
  have hkeep : ∀ s e s', (∃ m : TaskMachine, Reachable (Queue.step limits) .init m ∧ Queued s m) →
      step cfg s e = some s' →
        ∃ m : TaskMachine, Reachable (Queue.step limits) .init m ∧ Queued s' m := by
    rintro s e s' ⟨m, hm, hq⟩ hstep
    obtain ⟨es, m', hrun, hq'⟩ := queued_step hq hstep
    exact ⟨m', hm.trans ⟨es, hrun⟩, hq'⟩
  exact invariant hkeep ⟨_, Reachable.refl _, hboot⟩ h

end Simulation

/-- The queued tasks of requests that do not wait. -/
def Sys.running (s : Sys) : List ℕ :=
  (List.range s.ops.length).filter fun i =>
    (s.ops.map Op.queued)[i]? = some true ∧ i ∉ s.queue.queue

/-- **The work queue of the server keeps its promises: the counter is the number of the tasks that
run, and a task waits only while all slots are taken.** -/
theorem slots_of_reachable {cfg : Config} {w : World} {s : Sys}
    (h : Reachable (step cfg) (Sys.boot w) s) :
    s.queue.activeCount = s.running.length ∧ s.queue.activeCount ≤ CONCURRENCY ∧
      s.queue.queue.length ≤ MAX_PENDING ∧
      (s.queue.queue ≠ [] → s.queue.activeCount = CONCURRENCY) := by
  obtain ⟨m, hm, hq⟩ := queued_of_reachable h
  have hs := sound_of_reachable limits hm
  have hbusy := hs.busy_of_inUserCode (by simp [Machine.InUserCode, hq.idle])
  have hact := hs.active_le
  have hlen := hs.queue_le
  have heq := hs.active_eq
  rw [hq.service] at hact hlen heq hbusy
  have hrun : m.running = m.suspended := by rw [Machine.running, hq.idle]; rfl
  rw [hrun] at heq
  have hnodup := hq.nodup
  rw [Machine.unfinished, List.nodup_append] at hnodup
  have hperm : m.suspended.Perm s.running := by
    refine (List.perm_ext_iff_of_nodup hnodup.1 (List.nodup_range.filter _)).2 fun i => ?_
    have hmem := hq.mem_unfinished i
    rw [Machine.unfinished, List.mem_append, hq.service] at hmem
    simp only [List.mem_filter, List.mem_range, decide_eq_true_eq]
    constructor
    · intro hi
      have hflag := hmem.1 (Or.inl hi)
      have hlt := (List.getElem?_eq_some_iff.1 hflag).1
      rw [List.length_map] at hlt
      exact ⟨hlt, hflag, fun hwait => hnodup.2.2 i hi i (hq.service ▸ hwait) rfl⟩
    · rintro ⟨-, hflag, hwait⟩
      exact (hmem.2 hflag).resolve_right hwait
  refine ⟨heq.trans hperm.length_eq, hact, hlen, fun hne => ?_⟩
  exact Nat.le_antisymm hact (hbusy.resolve_left hne)

end ProtostarNest.Knowledge
