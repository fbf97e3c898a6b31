import ProtostarNest.Knowledge.Tasks

/-!
# The queued tasks come to an end

A queued task takes a bounded number of steps, and while one is queued some queued task can take
a step: the environment can always let the queue run empty.

* `Pc.Task`, `Pc.rank`: the control points of the queued tasks and the steps left from each;
* `Advance.task`: a task stays one and its rank falls; `advance_fail`: a failing call ends each;
* `queuesTasks_of_reachable`: what is queued is at such a control point;
* `progress`: some queued task can step, which lowers `Sys.work`;
* `settle`: a run of task steps after which nothing is queued, and what it leaves unchanged.
-/

namespace ProtostarNest.Knowledge

open Transition Queue

namespace Pc

/-- Control points of the functions that `uploadFiles` and `replaceFile` give to the queue. -/
def Task : Pc → Prop
  | .processPut _ _ => True
  | .processCreate _ _ _ => True
  | .replaceFind _ _ _ _ => True
  | .replacePut _ _ _ _ => True
  | .replaceDeleteOld _ _ _ _ _ => True
  | .replaceUpdate _ _ _ _ _ => True
  | .findAll _ => True
  | .formatCount _ _ => True
  | .done _ => True
  | _ => False

/-- A bound on the calls that a task has yet to make. -/
def rank : Pc → ℕ
  | .processPut _ _ => 2
  | .processCreate _ _ _ => 1
  | .replaceFind _ _ _ _ => 6
  | .replacePut _ _ _ _ => 5
  | .replaceDeleteOld _ _ _ _ _ => 4
  | .replaceUpdate _ _ _ _ _ => 3
  | .findAll _ => 2
  | .formatCount _ _ => 1
  | _ => 0

theorem Task.rank_pos {pc : Pc} (h : pc.Task) (hcall : pc.Calling) : 0 < pc.rank := by
  cases pc <;> simp_all [Task, Calling, rank]

end Pc

section Calls

variable {cfg : Config} {w w' : World} {env : Env} {pc pc' : Pc}

/-- Each call of a task brings it nearer to its end. -/
theorem Advance.task (h : Advance cfg w env pc w' pc') (ht : pc.Task) (hcall : pc.Calling) :
    pc'.Task ∧ pc'.rank < pc.rank := by
  cases h with
  | stop pc result hpc => exact ⟨trivial, ht.rank_pos hcall⟩
  | counted | deleteFound | objectDeleted | objectKept | rowDeleted | deleteFailed | selected
  | pushed | pushFailed | marked | markFailed | answered | answerFailed => exact ht.elim
  | stored | created | replaceFound | replaceStored | oldDeleted | oldKept | replaced
  | replaceFailed | listed => exact ⟨trivial, by simp [Pc.rank, Pc.throw]⟩

/-- A call that fails is answered in every state of the stores. -/
theorem advance_fail (cfg : Config) (w : World) (ht : pc.Task) (hcall : pc.Calling) :
    ∃ r, advance cfg w { fail := some "" } pc = some r := by
  cases pc with
  | done result => exact hcall.elim
  | uploadCount | uploadAdmit | uploadJoin | deleteFind | deleteObject | deleteRow | dispatchFind
  | dispatchPush | dispatchUpdate | webhookUpdate => exact ht.elim
  | processPut | processCreate | replaceFind | replacePut | replaceDeleteOld | replaceUpdate
  | findAll | formatCount => exact ⟨_, rfl⟩

end Calls

/-- A step of a task is one of its calls, or its last one, which frees its slot. -/
theorem Resumes.task {cfg : Config} {s s' : Sys} {i : ℕ} {env : Env} {op : Op}
    (h : Resumes cfg s i env op s') (ht : op.pc.Task) :
    (∃ w pc, op.pc.Calling ∧ advance cfg s.world env op.pc = some (w, pc) ∧
      s' = s.called i op w pc) ∨
    ∃ result, op.pc = .done result ∧ op.queued = true ∧ s' = s.release i op := by
  cases h with
  | accepted user files currentCount hpc => rw [hpc] at ht; exact ht.elim
  | joined user tasks result hpc hresult => rw [hpc] at ht; exact ht.elim
  | released result hpc hqueued => exact Or.inr ⟨result, hpc, hqueued, rfl⟩
  | called w pc hcall hadv => exact Or.inl ⟨w, pc, hcall, hadv, rfl⟩

/-! ### What is queued -/

/-- What runs inside of the queue is a task. -/
def Sys.QueuesTasks (s : Sys) : Prop := ∀ op ∈ s.ops, op.queued = true → op.pc.Task

section Tasks

variable {cfg : Config} {s s' : Sys} {e : Event}

theorem Sys.QueuesTasks.spawn (h : s.QueuesTasks) (pc : Pc) : (s.spawn pc).QueuesTasks := by
  intro op hop hq
  rcases List.mem_append.1 hop with hop | hop
  · exact h op hop hq
  · obtain rfl := List.mem_singleton.1 hop
    cases hq

theorem Sys.QueuesTasks.add (h : s.QueuesTasks) {pc : Pc} (hpc : pc.Task) :
    (s.add pc).QueuesTasks := by
  unfold Sys.add
  split
  · exact h.spawn _
  · intro op hop hq
    rcases List.mem_append.1 hop with hop | hop
    · exact h op hop hq
    · obtain rfl := List.mem_singleton.1 hop
      exact hpc

theorem Sys.QueuesTasks.addAll (h : s.QueuesTasks) (user : User) (files : List MulterFile) :
    (s.addAll user files).QueuesTasks := by
  induction files generalizing s with
  | nil => exact h
  | cons file files ih => exact ih (h.add trivial)

/-- The request at position `i` changes, and is a task if it is queued. -/
theorem Sys.QueuesTasks.set {i : ℕ} {op : Op} (h : s.QueuesTasks)
    (hops : s'.ops = s.ops.set i op) (hop : op.queued = true → op.pc.Task) : s'.QueuesTasks := by
  intro op' hop' hq
  rw [hops] at hop'
  rcases List.mem_or_eq_of_mem_set hop' with hold | rfl
  · exact h op' hold hq
  · exact hop hq

theorem queuesTasks_step (h : s.QueuesTasks) (hs : step cfg s e = some s') : s'.QueuesTasks := by
  cases e with
  | request r =>
    cases r with
    | replaceFile user id title file =>
      obtain rfl := Option.some.inj hs
      exact h.add trivial
    | updateDocStatusViaWebhook dto answers =>
      simp only [step, Sys.receive] at hs
      split_ifs at hs
      obtain rfl := Option.some.inj hs
      exact h.spawn _
    | _ =>
      obtain rfl := Option.some.inj hs
      exact h.spawn _
  | resume i env =>
    obtain ⟨-, op, hop, hres⟩ := step_resume_iff.1 hs
    have htask := h op (List.mem_of_getElem? hop)
    cases hres with
    -- an upload is outside of the queue
    | accepted user files currentCount hpc =>
      rw [hpc] at htask
      unfold Sys.accept
      split_ifs
      · exact h.set rfl fun hq => (htask hq).elim
      · exact (h.addAll user files).set rfl fun hq => (htask hq).elim
    | joined user tasks result hpc hresult =>
      rw [hpc] at htask
      exact h.set rfl fun hq => (htask hq).elim
    | released result hpc hqueued => exact h.set rfl fun hq => by cases hq
    | called w pc hcall hadv =>
      exact h.set rfl fun hq => ((advance_sound hadv).task (htask hq) hcall).1

theorem queuesTasks_of_reachable {w : World} (h : Reachable (step cfg) (Sys.boot w) s) :
    s.QueuesTasks :=
  invariant (fun _ _ _ hs hstep => queuesTasks_step hs hstep)
    (fun _ hop => absurd hop List.not_mem_nil) h

end Tasks

/-! ### The measure -/

def Op.work (op : Op) : ℕ := if op.queued = true then op.pc.rank + 1 else 0

def totalWork : List Op → ℕ
  | [] => 0
  | op :: ops => op.work + totalWork ops

/-- A bound on the steps that the queued tasks have yet to make. -/
def Sys.work (s : Sys) : ℕ := totalWork s.ops

theorem totalWork_set_lt {ops : List Op} {i : ℕ} {op op' : Op} (hop : ops[i]? = some op)
    (hlt : op'.work < op.work) : totalWork (ops.set i op') < totalWork ops := by
  induction ops generalizing i with
  | nil => cases hop
  | cons o ops ih =>
    cases i with
    | zero =>
      obtain rfl : o = op := Option.some.inj hop
      simp only [List.set_cons_zero, totalWork]
      omega
    | succ i =>
      have htail := ih (i := i) (by simpa using hop)
      simp only [List.set_cons_succ, totalWork]
      omega

/-- What a run of task steps does to a request: nothing if it is not queued, and a task that has
left the queue has reached its end. -/
def Op.Settles (op op' : Op) : Prop :=
  op' = op ∨ (op.queued = true ∧ (op'.queued = false → ∃ result, op'.pc = .done result))

theorem Op.Settles.trans {op₁ op₂ op₃ : Op} (h : op₁.Settles op₂) (h' : op₂.Settles op₃) :
    op₁.Settles op₃ := by
  rcases h' with rfl | ⟨hq, hdone⟩
  · exact h
  · rcases h with rfl | ⟨hq₁, -⟩
    · exact Or.inr ⟨hq, hdone⟩
    · exact Or.inr ⟨hq₁, hdone⟩

/-- The same for all requests; none is added. -/
structure Sys.Settles (s s' : Sys) : Prop where
  length : s'.ops.length = s.ops.length
  settles : ∀ (i : ℕ) (op : Op), s.ops[i]? = some op →
    ∃ op', s'.ops[i]? = some op' ∧ op.Settles op'

namespace Sys.Settles

variable {s s₁ s₂ : Sys}

theorem refl (s : Sys) : s.Settles s := ⟨rfl, fun _ op hop => ⟨op, hop, Or.inl rfl⟩⟩

theorem trans (h : s.Settles s₁) (h' : s₁.Settles s₂) : s.Settles s₂ := by
  refine ⟨h'.length.trans h.length, fun i op hop => ?_⟩
  obtain ⟨op₁, hop₁, hs₁⟩ := h.settles i op hop
  obtain ⟨op₂, hop₂, hs₂⟩ := h'.settles i op₁ hop₁
  exact ⟨op₂, hop₂, hs₁.trans hs₂⟩

theorem of_set {i : ℕ} {op op' : Op} (hop : s.ops[i]? = some op) (hops : s₁.ops = s.ops.set i op')
    (hs : op.Settles op') : s.Settles s₁ := by
  have hi := (List.getElem?_eq_some_iff.1 hop).1
  refine ⟨by rw [hops, List.length_set], fun j opj hj => ?_⟩
  rw [hops]
  by_cases hij : i = j
  · subst hij
    rw [hop] at hj
    cases hj
    exact ⟨op', List.getElem?_set_self hi, hs⟩
  · exact ⟨opj, by rw [List.getElem?_set_ne hij]; exact hj, Or.inl rfl⟩

/-- A request that is not queued stays where it is. -/
theorem keeps (h : s.Settles s₁) {i : ℕ} {op : Op} (hop : s.ops[i]? = some op)
    (hq : op.queued = false) : s₁.ops[i]? = some op := by
  obtain ⟨op', hop', hs⟩ := h.settles i op hop
  rcases hs with rfl | ⟨hq', -⟩
  · exact hop'
  · rw [hq] at hq'
    cases hq'

end Sys.Settles

/-! ### Progress -/

section Progress

variable {cfg : Config} {w : World} {s : Sys}

/-- What waits in the queue is queued. -/
theorem queued_of_waiting (h : Reachable (step cfg) (Sys.boot w) s) {i : ℕ} {op : Op}
    (hop : s.ops[i]? = some op) (hi : i ∈ s.queue.queue) : op.queued = true := by
  obtain ⟨m, -, hm⟩ := queued_of_reachable h
  have hmem : i ∈ m.unfinished := List.mem_append.2 (Or.inr (by rw [hm.service]; exact hi))
  have hflag := (hm.mem_unfinished i).1 hmem
  rw [List.getElem?_map, hop, Option.map_some] at hflag
  exact Option.some.inj hflag

theorem not_waiting (h : Reachable (step cfg) (Sys.boot w) s) {i : ℕ} {op : Op}
    (hop : s.ops[i]? = some op) (hq : op.queued = false) : i ∉ s.queue.queue := by
  intro hi
  rw [queued_of_waiting h hop hi] at hq
  cases hq

/-- While a task is queued, one of them runs. -/
theorem exists_running (h : Reachable (step cfg) (Sys.boot w) s) {op : Op} (hop : op ∈ s.ops)
    (hq : op.queued = true) :
    ∃ i op', s.ops[i]? = some op' ∧ op'.queued = true ∧ i ∉ s.queue.queue := by
  obtain ⟨j, hj⟩ := List.getElem?_of_mem hop
  by_cases hwait : j ∈ s.queue.queue
  · obtain ⟨hactive, -, -, hbusy⟩ := slots_of_reachable h
    have hfull := hbusy (List.ne_nil_of_mem hwait)
    have hpos : 0 < s.running.length := by
      rw [← hactive, hfull]
      decide
    obtain ⟨i, hi⟩ := List.exists_mem_of_length_pos hpos
    simp only [Sys.running, List.mem_filter, decide_eq_true_eq] at hi
    obtain ⟨-, hflag, hrun⟩ := hi
    rw [List.getElem?_map] at hflag
    obtain ⟨op', hop', hq'⟩ := Option.map_eq_some_iff.1 hflag
    exact ⟨i, op', hop', hq', hrun⟩
  · exact ⟨j, op, hj, hq, hwait⟩

/-- A queued task that does not wait can make a step, and less is left to do then. -/
theorem progress_of_running (h : Reachable (step cfg) (Sys.boot w) s) {i : ℕ} {op : Op}
    (hi : s.ops[i]? = some op) (hq : op.queued = true) (hrun : i ∉ s.queue.queue) :
    ∃ env s', step cfg s (.resume i env) = some s' ∧ s.Settles s' ∧ s'.work < s.work := by
  have htask := queuesTasks_of_reachable h op (List.mem_of_getElem? hi) hq
  by_cases hcall : op.pc.Calling
  · obtain ⟨⟨w', pc⟩, hadv⟩ := advance_fail cfg s.world htask hcall
    obtain ⟨-, hrank⟩ := (advance_sound hadv).task htask hcall
    have hstep : step cfg s (.resume i { fail := some "" }) = some (s.called i op w' pc) :=
      step_resume_iff.2 ⟨hrun, op, hi, .called w' pc hcall hadv⟩
    have hset : op.Settles { op with pc := pc } :=
      Or.inr ⟨hq, fun hq' => by rw [show op.queued = false from hq'] at hq; cases hq⟩
    have hwork : ({ op with pc := pc } : Op).work < op.work := by
      simp only [Op.work, hq, if_true]
      omega
    exact ⟨_, _, hstep, .of_set hi rfl hset, totalWork_set_lt hi hwork⟩
  · obtain ⟨result, hpc⟩ : ∃ result, op.pc = .done result := by
      cases hpc : op.pc <;> simp_all [Pc.Task, Pc.Calling]
    have hstep : step cfg s (.resume i {}) = some (s.release i op) :=
      step_resume_iff.2 ⟨hrun, op, hi, .released result hpc hq⟩
    have hwork : ({ op with queued := false } : Op).work < op.work := by
      simp [Op.work, hq]
    exact ⟨_, _, hstep, .of_set hi rfl (Or.inr ⟨hq, fun _ => ⟨result, hpc⟩⟩),
      totalWork_set_lt hi hwork⟩

/-- **While a task is queued, some queued task can make a step, and less is left to do then.** -/
theorem progress (h : Reachable (step cfg) (Sys.boot w) s) {op : Op} (hop : op ∈ s.ops)
    (hq : op.queued = true) :
    ∃ i env s', step cfg s (.resume i env) = some s' ∧ s.Settles s' ∧ s'.work < s.work := by
  obtain ⟨i, op, hi, hq, hrun⟩ := exists_running h hop hq
  exact ⟨i, progress_of_running h hi hq hrun⟩

/-- **The queue can run empty: some run of task steps ends with nothing queued.** -/
theorem settle (h : Reachable (step cfg) (Sys.boot w) s) :
    ∃ es t, run (step cfg) s es = some t ∧ (∀ e ∈ es, ∃ i env, e = .resume i env) ∧
      s.Settles t ∧ ∀ op ∈ t.ops, op.queued = false := by
  -- on the steps that are left
  induction hn : s.work using Nat.strong_induction_on generalizing s with
  | _ n ih =>
    by_cases hall : ∀ op ∈ s.ops, op.queued = false
    · exact ⟨[], s, rfl, by simp, .refl s, hall⟩
    · obtain ⟨op, hop, hq⟩ : ∃ op ∈ s.ops, op.queued = true := by simpa using hall
      obtain ⟨i, env, s₁, hstep, hset, hlt⟩ := progress h hop hq
      obtain ⟨es, t, hrun, hes, hset', hdone⟩ := ih s₁.work (hn ▸ hlt) (h.tail hstep) rfl
      refine ⟨.resume i env :: es, t, ?_, ?_, hset.trans hset', hdone⟩
      · rw [run_cons_some _ _ hstep, hrun]
      · intro e he
        rcases List.mem_cons.1 he with rfl | he
        · exact ⟨i, env, rfl⟩
        · exact hes e he

end Progress

end ProtostarNest.Knowledge
