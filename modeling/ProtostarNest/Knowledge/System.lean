import ProtostarNest.Knowledge.Requests
import ProtostarNest.Queue.Service

/-!
# Concurrent requests

A server with any number of requests in flight: the stores, the work queue and the requests,
each at a control point.  A label is the arrival of a request or one step of a request, so a
run is an interleaving of the requests' steps.

* `Op`: a request, or one task of it; `queued` says that it runs inside of the work queue;
* `Sys.add`, `Sys.accept`, `Sys.joined`: the parts of `uploadFiles` and `replaceFile` that use
  the queue;
* `step`: the transitions; a task that waits in the queue makes no step, and the last step of a
  queued task frees its slot;
* `step_resume_iff`: the step of a request, by its control point;
* `step_cases`, `step_quiet_or_calls`: what a label does to the stores and to the list of
  requests.

The number of a request or task is its position in `ops`, which is also its name in the queue.
-/

namespace ProtostarNest.Knowledge

open Transition Queue

structure Op where
  queued : Bool
  pc : Pc

/-- The value of a task whose promise has settled; a rejected one counts as `null`. -/
def Op.value : Op → Option (Option KnowledgeDoc)
  | ⟨false, .done (.ok (.doc doc))⟩ => some (some doc)
  | ⟨false, .done _⟩ => some none
  | _ => none

structure Sys where
  world : World
  queue : QueueService ℕ
  ops : List Op

/-- The calls from outside. A webhook may answer a job; the dispatcher is a cron job. -/
inductive Request
  | uploadFiles (user : User) (files : List MulterFile)
  | replaceFile (user : User) (id : String) (title : Option String) (file : MulterFile)
  | deleteFile (user : User) (id : String)
  | findAll (user : User)
  | dispatchPendingTasks
  | updateDocStatusViaWebhook (dto : RagWebhookDto) (answers : Option Job)

inductive Event
  | request (r : Request)
  | resume (i : ℕ) (env : Env)

namespace Sys

/-- A server that has just started. -/
def boot (w : World) : Sys := ⟨w, QueueService.init, []⟩

variable (s : Sys)

/-- Where the request `i` is. -/
def pc? (i : ℕ) : Option Pc := s.ops[i]?.map Op.pc

theorem pc?_of_getElem? {i : ℕ} {op : Op} (h : s.ops[i]? = some op) : s.pc? i = some op.pc := by
  rw [pc?, h, Option.map_some]

/-- A new request outside of the queue. -/
def spawn (pc : Pc) : Sys := { s with ops := s.ops ++ [⟨false, pc⟩] }

/-- `queueService.add` of a task; a refused task has failed already. -/
def add (pc : Pc) : Sys :=
  match s.queue.enqueue limits s.ops.length with
  | none => s.spawn (.throw (.Error queueFullMessage))
  | some queue => { s with queue := queue, ops := s.ops ++ [⟨true, pc⟩] }

/-- `files.map((file) => this.queueService.add(...))`. -/
def addAll (user : User) : Sys → List MulterFile → Sys
  | s, [] => s
  | s, file :: files => addAll user (s.add (.processPut user file)) files

/-- The request `i` is at `pc` now. -/
def setPc (i : ℕ) (op : Op) (pc : Pc) : Sys := { s with ops := s.ops.set i { op with pc := pc } }

/-- `uploadFiles` from its count to the `Promise.all`. -/
def accept (i : ℕ) (op : Op) (user : User) (files : List MulterFile) (currentCount : ℕ) : Sys :=
  if currentCount + files.length > PERSONAL_MAX_UPLOADS then
    s.setPc i op (.throw (.ForbiddenException
      ("Upload limit reached. You can only store up to " ++ toString PERSONAL_MAX_UPLOADS ++
        " documents. Current: " ++ toString currentCount)))
  else
    (addAll user s files).setPc i op (.uploadJoin user (List.range' s.ops.length files.length))

/-- The results of the `Promise.all` over the tasks, once all of them have settled. -/
def joined (tasks : List ℕ) : Option (List (Option KnowledgeDoc)) :=
  tasks.mapM fun t => s.ops[t]?.bind Op.value

/-- The request `i` has made a call and reached `pc`. -/
def called (i : ℕ) (op : Op) (w : World) (pc : Pc) : Sys := { s.setPc i op pc with world := w }

/-- A finished task settles its promise and runs the `finally` block of the queue. -/
def release (i : ℕ) (op : Op) : Sys :=
  { s with queue := s.queue.release limits, ops := s.ops.set i { op with queued := false } }

end Sys

section Step

variable (cfg : Config)

def Sys.receive (s : Sys) : Request → Option Sys
  | .uploadFiles user files => some (s.spawn (.uploadCount user files))
  | .replaceFile user id title file => some (s.add (.replaceFind user id title file))
  | .deleteFile user id => some (s.spawn (.deleteFind user id))
  | .findAll user => some (s.spawn (.findAll user))
  | .dispatchPendingTasks => some (s.spawn .dispatchFind)
  | .updateDocStatusViaWebhook dto answers =>
      if ∀ job ∈ answers, job ∈ s.world.jobs ∧ job.docId = dto.docId then
        some (s.spawn (.webhookUpdate dto answers))
      else none

def Sys.resume (s : Sys) (i : ℕ) (op : Op) (env : Env) : Option Sys :=
  match op.pc with
  | .uploadAdmit user files currentCount => some (s.accept i op user files currentCount)
  | .uploadJoin user tasks =>
      (s.joined tasks).map fun result => s.setPc i op (.formatCount user (result.filterMap id))
  | .done _ => if op.queued then some (s.release i op) else none
  | pc => (advance cfg s.world env pc).map fun r => s.called i op r.1 r.2

def step (s : Sys) : Event → Option Sys
  | .request r => s.receive r
  | .resume i env =>
      if i ∈ s.queue.queue then none
      else
        match s.ops[i]? with
        | none => none
        | some op => s.resume cfg i op env

end Step

/-! ### Inversion -/

namespace Pc

/-- Control points at which a request arrives. -/
inductive Initial : Pc → Prop
  | uploadCount (user : User) (files : List MulterFile) : Initial (.uploadCount user files)
  | replaceFind (user : User) (id : String) (title : Option String) (file : MulterFile) :
      Initial (.replaceFind user id title file)
  | deleteFind (user : User) (id : String) : Initial (.deleteFind user id)
  | findAll (user : User) : Initial (.findAll user)
  | dispatchFind : Initial .dispatchFind
  | webhookUpdate (dto : RagWebhookDto) (answers : Option Job) :
      Initial (.webhookUpdate dto answers)
  | refused (e : Exception) : Initial (.throw e)

/-- Control points of the tasks that `uploadFiles` adds for a user's files. -/
inductive TaskOf (user : User) : Pc → Prop
  | processPut (file : MulterFile) : TaskOf user (.processPut user file)
  | refused (e : Exception) : TaskOf user (.throw e)

/-- Steps without a call and without a new task: the quota check of `uploadFiles` fails, all its
tasks are done, or a task leaves the queue. -/
inductive Local : Pc → Pc → Prop
  | refused (user : User) (files : List MulterFile) (currentCount : ℕ) (e : Exception) :
      Local (.uploadAdmit user files currentCount) (.throw e)
  | joined (user : User) (tasks : List ℕ) (docs : List KnowledgeDoc) :
      Local (.uploadJoin user tasks) (.formatCount user docs)
  | released (result : Except Exception Reply) : Local (.done result) (.done result)

/-- Control points that hold no row read before and no object stored before. -/
def Idle : Pc → Prop
  | .processCreate _ _ _ => False
  | .replacePut _ _ _ _ => False
  | .replaceDeleteOld _ _ _ _ _ => False
  | .replaceUpdate _ _ _ _ _ => False
  | .deleteObject _ _ => False
  | .deleteRow _ _ => False
  | .dispatchPush _ _ => False
  | .dispatchUpdate _ _ => False
  | _ => True

/-- Control points at which a request awaits a call of its own. -/
def Calling : Pc → Prop
  | .uploadAdmit _ _ _ => False
  | .uploadJoin _ _ => False
  | .done _ => False
  | _ => True

theorem Initial.idle {pc : Pc} (h : pc.Initial) : pc.Idle := by
  cases h <;> trivial

theorem TaskOf.idle {user : User} {pc : Pc} (h : pc.TaskOf user) : pc.Idle := by
  cases h <;> trivial

theorem Local.idle {pc pc' : Pc} (h : pc.Local pc') : pc.Idle ∧ pc'.Idle := by
  cases h <;> exact ⟨trivial, trivial⟩

theorem Local.target {pc pc' : Pc} (h : pc.Local pc') : pc.target = none := by
  cases h <;> rfl

end Pc

/-- A webhook that answers a job comes after the push of the job. -/
def Answerable (w : World) : Pc → Prop
  | .webhookUpdate dto answers => ∀ job ∈ answers, job ∈ w.jobs ∧ job.docId = dto.docId
  | _ => True

/-- What the step of the request `i` does to the server, by the control point it is at. -/
inductive Resumes (cfg : Config) (s : Sys) (i : ℕ) (env : Env) (op : Op) : Sys → Prop
  | accepted (user : User) (files : List MulterFile) (currentCount : ℕ)
      (hpc : op.pc = .uploadAdmit user files currentCount) :
      Resumes cfg s i env op (s.accept i op user files currentCount)
  | joined (user : User) (tasks : List ℕ) (result : List (Option KnowledgeDoc))
      (hpc : op.pc = .uploadJoin user tasks) (hresult : s.joined tasks = some result) :
      Resumes cfg s i env op (s.setPc i op (.formatCount user (result.filterMap id)))
  | released (result : Except Exception Reply) (hpc : op.pc = .done result)
      (hqueued : op.queued = true) : Resumes cfg s i env op (s.release i op)
  | called (w : World) (pc : Pc) (hcall : op.pc.Calling)
      (hadv : advance cfg s.world env op.pc = some (w, pc)) :
      Resumes cfg s i env op (s.called i op w pc)

section Inversion

variable {cfg : Config} {s s' : Sys} {e : Event}

theorem resume_iff {i : ℕ} {op : Op} {env : Env} :
    s.resume cfg i op env = some s' ↔ Resumes cfg s i env op s' := by
  constructor
  · intro h
    unfold Sys.resume at h
    split at h
    · rename_i user files currentCount hpc
      obtain rfl := Option.some.inj h
      exact .accepted user files currentCount hpc
    · rename_i user tasks hpc
      obtain ⟨result, hresult, rfl⟩ := Option.map_eq_some_iff.1 h
      exact .joined user tasks result hpc hresult
    · rename_i result hpc
      split_ifs at h with hqueued
      obtain rfl := Option.some.inj h
      exact .released result hpc hqueued
    · rename_i hupload hjoin hdone
      obtain ⟨⟨w, pc⟩, hadv, rfl⟩ := Option.map_eq_some_iff.1 h
      refine .called w pc ?_ hadv
      cases hpc : op.pc with
      | uploadAdmit user files n => exact absurd hpc (hupload user files n)
      | uploadJoin user tasks => exact absurd hpc (hjoin user tasks)
      | done result => exact absurd hpc (hdone result)
      | _ => trivial
  · intro h
    unfold Sys.resume
    cases h with
    | accepted user files currentCount hpc => rw [hpc]
    | joined user tasks result hpc hresult => simp only [hpc, hresult, Option.map_some]
    | released result hpc hqueued => simp only [hpc, if_pos hqueued]
    | called w pc hcall hadv =>
      split
      · rename_i hpc
        rw [hpc] at hcall
        exact hcall.elim
      · rename_i hpc
        rw [hpc] at hcall
        exact hcall.elim
      · rename_i hpc
        rw [hpc] at hcall
        exact hcall.elim
      · rw [hadv, Option.map_some]

/-- The step of a request: it does not wait in the queue. -/
theorem step_resume_iff {i : ℕ} {env : Env} :
    step cfg s (.resume i env) = some s' ↔
      i ∉ s.queue.queue ∧ ∃ op, s.ops[i]? = some op ∧ Resumes cfg s i env op s' := by
  simp only [step]
  constructor
  · intro h
    split_ifs at h with hwait
    split at h
    · cases h
    · rename_i op hop
      exact ⟨hwait, op, hop, resume_iff.1 h⟩
  · rintro ⟨hwait, op, hop, h⟩
    rw [if_neg hwait, hop]
    exact resume_iff.2 h

/-- The step of a request that is known. -/
theorem resumes_of_step {i : ℕ} {env : Env} {op : Op} (hop : s.ops[i]? = some op)
    (h : step cfg s (.resume i env) = some s') : Resumes cfg s i env op s' := by
  obtain ⟨-, op', hop', hres⟩ := step_resume_iff.1 h
  rw [hop] at hop'
  obtain rfl := Option.some.inj hop'
  exact hres

/-- A request that awaits a call of its own makes that call. -/
theorem called_of_step {i : ℕ} {env : Env} {op : Op} (hop : s.ops[i]? = some op)
    (hcall : op.pc.Calling) (h : step cfg s (.resume i env) = some s') :
    ∃ w pc, advance cfg s.world env op.pc = some (w, pc) ∧ s' = s.called i op w pc := by
  cases resumes_of_step hop h with
  | accepted user files n hadm => rw [hadm] at hcall; exact hcall.elim
  | joined user tasks result hjoin => rw [hjoin] at hcall; exact hcall.elim
  | released result hdone => rw [hdone] at hcall; exact hcall.elim
  | called w pc _ hadv => exact ⟨w, pc, hadv, rfl⟩

theorem add_world (pc : Pc) : (s.add pc).world = s.world := by
  unfold Sys.add
  split <;> rfl

theorem add_ops (pc : Pc) :
    ∃ op : Op, (s.add pc).ops = s.ops ++ [op] ∧
      (op.pc = pc ∨ op.pc = .throw (.Error queueFullMessage)) := by
  unfold Sys.add
  split
  · exact ⟨_, rfl, Or.inr rfl⟩
  · exact ⟨_, rfl, Or.inl rfl⟩

theorem addAll_world (user : User) (files : List MulterFile) :
    (s.addAll user files).world = s.world := by
  induction files generalizing s with
  | nil => rfl
  | cons file files ih => rw [Sys.addAll, ih, add_world]

/-- One task for each file, after the requests that are there. -/
theorem addAll_ops (user : User) (files : List MulterFile) :
    ∃ tasks : List Op, (s.addAll user files).ops = s.ops ++ tasks ∧
      tasks.length = files.length ∧ ∀ op ∈ tasks, op.pc.TaskOf user := by
  induction files generalizing s with
  | nil => exact ⟨[], by rw [List.append_nil]; rfl, rfl, by simp⟩
  | cons file files ih =>
    obtain ⟨op, hop, hpc⟩ := add_ops (s := s) (.processPut user file)
    obtain ⟨tasks, htasks, hlen, htask⟩ := ih (s := s.add (.processPut user file))
    refine ⟨op :: tasks, ?_, by rw [List.length_cons, List.length_cons, hlen], ?_⟩
    · rw [Sys.addAll, htasks, hop, List.append_assoc, List.singleton_append]
    · intro op' hop'
      rcases List.mem_cons.1 hop' with rfl | hmem
      · rcases hpc with hpc | hpc <;> rw [hpc]
        · exact .processPut file
        · exact .refused _
      · exact htask op' hmem

theorem receive_cases {r : Request} (h : s.receive r = some s') :
    ∃ op, s'.world = s.world ∧ s'.ops = s.ops ++ [op] ∧ op.pc.Initial ∧
      Answerable s.world op.pc := by
  cases r with
  | uploadFiles user files =>
    obtain rfl := Option.some.inj h
    exact ⟨_, rfl, rfl, .uploadCount user files, trivial⟩
  | replaceFile user id title file =>
    obtain rfl := Option.some.inj h
    obtain ⟨op, hops, hpc⟩ := add_ops (s := s) (.replaceFind user id title file)
    refine ⟨op, add_world _, hops, ?_⟩
    rcases hpc with hpc | hpc <;> rw [hpc]
    · exact ⟨.replaceFind user id title file, trivial⟩
    · exact ⟨.refused _, trivial⟩
  | deleteFile user id =>
    obtain rfl := Option.some.inj h
    exact ⟨_, rfl, rfl, .deleteFind user id, trivial⟩
  | findAll user =>
    obtain rfl := Option.some.inj h
    exact ⟨_, rfl, rfl, .findAll user, trivial⟩
  | dispatchPendingTasks =>
    obtain rfl := Option.some.inj h
    exact ⟨_, rfl, rfl, .dispatchFind, trivial⟩
  | updateDocStatusViaWebhook dto answers =>
    simp only [Sys.receive] at h
    split_ifs at h with hanswers
    obtain rfl := Option.some.inj h
    exact ⟨_, rfl, rfl, .webhookUpdate dto answers, hanswers⟩

/-- What a label does to the stores and the requests. -/
theorem step_cases (h : step cfg s e = some s') :
    (∃ r op, e = .request r ∧ s'.world = s.world ∧ s'.ops = s.ops ++ [op] ∧ op.pc.Initial ∧
      Answerable s.world op.pc) ∨
    ∃ i env op, e = .resume i env ∧ s.ops[i]? = some op ∧
      ((∃ w pc, Advance cfg s.world env op.pc w pc ∧ s'.world = w ∧
          s'.ops = s.ops.set i { op with pc := pc }) ∨
        (∃ op', op.pc.Local op'.pc ∧ s'.world = s.world ∧ s'.ops = s.ops.set i op') ∨
        ∃ user files currentCount tasks ids, op.pc = .uploadAdmit user files currentCount ∧
          currentCount + files.length ≤ PERSONAL_MAX_UPLOADS ∧ tasks.length = files.length ∧
          (∀ t ∈ tasks, t.pc.TaskOf user) ∧ s'.world = s.world ∧
          s'.ops = (s.ops ++ tasks).set i { op with pc := .uploadJoin user ids }) := by
  cases e with
  | request r =>
    obtain ⟨op, hw, hops, hpc, hans⟩ := receive_cases h
    exact Or.inl ⟨r, op, rfl, hw, hops, hpc, hans⟩
  | resume i env =>
    obtain ⟨-, op, hop, hres⟩ := step_resume_iff.1 h
    refine Or.inr ⟨i, env, op, rfl, hop, ?_⟩
    cases hres with
    | accepted user files currentCount hpc =>
      unfold Sys.accept
      split_ifs with hlimit
      · refine Or.inr (Or.inl ⟨_, ?_, rfl, rfl⟩)
        rw [hpc]
        exact Pc.Local.refused user files currentCount _
      · obtain ⟨tasks, htasks, hlen, htask⟩ := addAll_ops (s := s) user files
        refine Or.inr (Or.inr ⟨user, files, currentCount, tasks,
          List.range' s.ops.length files.length, hpc, Nat.not_lt.1 hlimit, hlen, htask,
          addAll_world user files, ?_⟩)
        rw [Sys.setPc, htasks]
    | joined user tasks result hpc hresult =>
      refine Or.inr (Or.inl ⟨_, ?_, rfl, rfl⟩)
      rw [hpc]
      exact Pc.Local.joined user tasks _
    | released result hpc hqueued =>
      refine Or.inr (Or.inl ⟨{ op with queued := false }, ?_, rfl, rfl⟩)
      rw [hpc]
      exact Pc.Local.released result
    | called w pc hcall hadv => exact Or.inl ⟨w, pc, advance_sound hadv, rfl, rfl⟩

/-- A request stays where it is while others make steps. -/
theorem ops_of_ne {j : ℕ} {op : Op} (h : step cfg s e = some s') (he : ∀ env, e ≠ .resume j env)
    (hop : s.ops[j]? = some op) : s'.ops[j]? = some op := by
  have hj := (List.getElem?_eq_some_iff.1 hop).1
  rcases step_cases h with ⟨r, op', -, -, hops, -⟩ | ⟨i, env, op', rfl, -, hcases⟩
  · rw [hops, List.getElem?_append_left hj]
    exact hop
  · have hne : i ≠ j := fun heq => he env (heq ▸ rfl)
    rcases hcases with ⟨w, pc, -, -, hops⟩ | ⟨op₁, -, -, hops⟩ |
      ⟨user, files, n, tasks, ids, -, -, -, -, -, hops⟩
    · rw [hops, List.getElem?_set_ne hne]
      exact hop
    · rw [hops, List.getElem?_set_ne hne]
      exact hop
    · rw [hops, List.getElem?_set_ne hne, List.getElem?_append_left hj]
      exact hop

theorem TaskOf.answerable {user : User} {pc : Pc} (h : pc.TaskOf user) (w : World) :
    Answerable w pc := by
  cases h <;> trivial

theorem Local.answerable {pc pc' : Pc} (h : pc.Local pc') (w : World) : Answerable w pc' := by
  cases h <;> trivial

/-- A step that touches no store: requests or tasks come, or idle ones move on. -/
structure Quiet (s s' : Sys) : Prop where
  world : s'.world = s.world
  old_or_idle : ∀ (j : ℕ) (op : Op), s'.ops[j]? = some op →
    s.ops[j]? = some op ∨ (op.pc.Idle ∧ Answerable s.world op.pc)
  kept : ∀ (j : ℕ) (op : Op), s.ops[j]? = some op → s'.ops[j]? = some op ∨ op.pc.Idle

/-- The request `i` makes a call and moves on. -/
structure Calls (cfg : Config) (s s' : Sys) (i : ℕ) (env : Env) (op : Op) (w : World) (pc : Pc) :
    Prop where
  op_eq : s.ops[i]? = some op
  advance : Advance cfg s.world env op.pc w pc
  world : s'.world = w
  ops : s'.ops = s.ops.set i { op with pc := pc }

theorem getElem?_set_cases {ops : List Op} {i j : ℕ} {op op' : Op}
    (h : (ops.set i op')[j]? = some op) : (j = i ∧ op = op') ∨ (j ≠ i ∧ ops[j]? = some op) := by
  by_cases hj : i = j
  · subst hj
    rw [List.getElem?_set_self'] at h
    obtain ⟨x, -, rfl⟩ := Option.map_eq_some_iff.1 h
    exact Or.inl ⟨rfl, rfl⟩
  · rw [List.getElem?_set_ne hj] at h
    exact Or.inr ⟨fun heq => hj heq.symm, h⟩

/-- A request of a longer list is an old one or one of those at its end. -/
theorem getElem?_append_cases {ops tasks : List Op} {j : ℕ} {op : Op}
    (h : (ops ++ tasks)[j]? = some op) :
    ops[j]? = some op ∨ ∃ k, j = ops.length + k ∧ tasks[k]? = some op := by
  by_cases hj : j < ops.length
  · rw [List.getElem?_append_left hj] at h
    exact Or.inl h
  · rw [List.getElem?_append_right (Nat.not_lt.1 hj)] at h
    exact Or.inr ⟨j - ops.length, by omega, h⟩

/-- The same when one request has come. -/
theorem getElem?_concat_cases {ops : List Op} {j : ℕ} {op op' : Op}
    (h : (ops ++ [op'])[j]? = some op) : ops[j]? = some op ∨ (j = ops.length ∧ op = op') := by
  rcases getElem?_append_cases h with hold | ⟨k, rfl, hk⟩
  · exact Or.inl hold
  · obtain ⟨hlt, rfl⟩ := List.getElem?_eq_some_iff.1 hk
    obtain rfl : k = 0 := Nat.lt_one_iff.1 hlt
    exact Or.inr ⟨rfl, rfl⟩

theorem Calls.ops_cases {i j : ℕ} {env : Env} {op op' : Op} {w : World} {pc : Pc}
    (h : Calls cfg s s' i env op w pc) (hop : s'.ops[j]? = some op') :
    (j = i ∧ op' = { op with pc := pc }) ∨ (j ≠ i ∧ s.ops[j]? = some op') := by
  rw [h.ops] at hop
  exact getElem?_set_cases hop

/-- The request that made the call is at its new control point. -/
theorem Calls.ops_self {i : ℕ} {env : Env} {op : Op} {w : World} {pc : Pc}
    (h : Calls cfg s s' i env op w pc) : s'.ops[i]? = some { op with pc := pc } := by
  rw [h.ops, List.getElem?_set_self (List.getElem?_eq_some_iff.1 h.op_eq).1]

/-- The requests other than the one that made the call stay where they are. -/
theorem Calls.ops_ne {i j : ℕ} {env : Env} {op op' : Op} {w : World} {pc : Pc}
    (h : Calls cfg s s' i env op w pc) (hj : j ≠ i) (hop : s.ops[j]? = some op') :
    s'.ops[j]? = some op' := by
  rw [h.ops, List.getElem?_set_ne hj.symm]
  exact hop

theorem step_quiet_or_calls (h : step cfg s e = some s') :
    Quiet s s' ∨ ∃ i env op w pc, e = .resume i env ∧ Calls cfg s s' i env op w pc := by
  rcases step_cases h with ⟨r, op, rfl, hw, hops, hpc, hans⟩ | ⟨i, env, op, rfl, hop, hcases⟩
  · refine Or.inl ⟨hw, fun j op' hop' => ?_, fun j op' hop' => Or.inl ?_⟩
    · rw [hops] at hop'
      rcases getElem?_concat_cases hop' with hold | ⟨-, rfl⟩
      · exact Or.inl hold
      · exact Or.inr ⟨hpc.idle, hans⟩
    · exact ops_of_ne h (fun env heq => by cases heq) hop'
  · -- the request itself was idle, and the others have not moved
    have hkept : op.pc.Idle → ∀ (j : ℕ) (op' : Op), s.ops[j]? = some op' →
        s'.ops[j]? = some op' ∨ op'.pc.Idle := by
      intro hidle j op' hop'
      by_cases hj : i = j
      · subst hj
        rw [hop] at hop'
        cases hop'
        exact Or.inr hidle
      · exact Or.inl (ops_of_ne h (fun env' heq => by cases heq; exact hj rfl) hop')
    rcases hcases with ⟨w, pc, hadv, hw, hops⟩ | ⟨op₁, hloc, hw, hops⟩ |
      ⟨user, files, currentCount, tasks, ids, hpc, -, -, htask, hw, hops⟩
    · exact Or.inr ⟨i, env, op, w, pc, rfl, hop, hadv, hw, hops⟩
    · refine Or.inl ⟨hw, fun j op' hop' => ?_, hkept hloc.idle.1⟩
      rw [hops] at hop'
      rcases getElem?_set_cases hop' with ⟨-, rfl⟩ | ⟨-, hold⟩
      · exact Or.inr ⟨hloc.idle.2, Local.answerable hloc _⟩
      · exact Or.inl hold
    · refine Or.inl ⟨hw, fun j op' hop' => ?_, hkept (by rw [hpc]; trivial)⟩
      rw [hops] at hop'
      rcases getElem?_set_cases hop' with ⟨-, rfl⟩ | ⟨-, hold⟩
      · exact Or.inr ⟨trivial, trivial⟩
      · rcases getElem?_append_cases hold with hold | ⟨k, -, hk⟩
        · exact Or.inl hold
        · have htaskOf := htask op' (List.mem_of_getElem? hk)
          exact Or.inr ⟨htaskOf.idle, TaskOf.answerable htaskOf _⟩

/-- A property of the stores that holds after the call of a step, if it makes one, is kept. -/
theorem world_step {P : World → Prop} (hs : P s.world) (h : step cfg s e = some s')
    (hcall : ∀ i env op w pc, e = .resume i env → Calls cfg s s' i env op w pc → P w) :
    P s'.world := by
  rcases step_quiet_or_calls h with hq | ⟨i, env, op, w, pc, he, hc⟩
  · rw [hq.world]
    exact hs
  · rw [hc.world]
    exact hcall i env op w pc he hc

/-- A request that is about to change a row makes that call when it moves. -/
theorem calls_of_target {i : ℕ} {env : Env} {pc : Pc} (h : step cfg s (.resume i env) = some s')
    (hpc : s.pc? i = some pc) (ht : pc.target ≠ none) :
    ∃ op w pc', op.pc = pc ∧ Calls cfg s s' i env op w pc' := by
  rcases step_cases h with ⟨r, op, he, -⟩ | ⟨i', env', op, he, hop, hcases⟩
  · cases he
  · cases he
    rw [s.pc?_of_getElem? hop] at hpc
    cases hpc
    rcases hcases with ⟨w, pc, hadv, hw, hops⟩ | ⟨op', hloc, -⟩ | ⟨user, files, n, -, -, hadm, -⟩
    · exact ⟨op, w, pc, rfl, hop, hadv, hw, hops⟩
    · exact absurd hloc.target ht
    · exact absurd (by rw [hadm]; rfl) ht

/-- The step of a request at one of its own calls. -/
theorem advance_of_calling {i : ℕ} {env : Env} {pc : Pc}
    (h : step cfg s (.resume i env) = some s')
    (hpc : s.pc? i = some pc) (hcall : pc.Calling) :
    ∃ pc', advance cfg s.world env pc = some (s'.world, pc') ∧ s'.pc? i = some pc' := by
  obtain ⟨op, hop, rfl⟩ := Option.map_eq_some_iff.1 hpc
  obtain ⟨w, pc', hadv, rfl⟩ := called_of_step hop hcall h
  have hi := (List.getElem?_eq_some_iff.1 hop).1
  exact ⟨pc', hadv, by simp [Sys.pc?, Sys.called, Sys.setPc, hi]⟩

end Inversion

/-! ### A first run -/

def exampleConfig : Config := ⟨"protostar", fun _ => "hash"⟩

def exampleFile : MulterFile := ⟨"notes.txt", "text/plain", [1, 2], 2⟩

def alice : User := ⟨"alice"⟩

/-- One request that uploads a file, from its arrival to its answer. -/
def uploadRun : List Event :=
  [.request (.uploadFiles alice [exampleFile]), .resume 0 {}, .resume 0 {},
    .resume 1 { uuid := "k0" }, .resume 1 { id := "d0" }, .resume 1 {}, .resume 0 {}, .resume 0 {}]

/-- The row that it creates. -/
def uploadedDoc : KnowledgeDoc :=
  newDoc exampleConfig { id := "d0" } alice exampleFile "2025/01/k0_notes.txt"

example : (run (step exampleConfig) (Sys.boot World.empty) uploadRun).map
    (fun s => s.world.docs.rows) = some [uploadedDoc] := by decide

end ProtostarNest.Knowledge
