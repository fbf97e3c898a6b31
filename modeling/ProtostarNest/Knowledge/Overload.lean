import ProtostarNest.Filter
import ProtostarNest.Knowledge.Progress

/-!
# Overload

The clients of the server, and what they are told when the work queue is full.  The two routes
that use the queue check `isBusy` in an interceptor; the framework calls the handler later, and
the handler of an upload adds its tasks only after a query.

* `intercept`, `Exception.thrown`: the exceptions of the interceptor and of the service, as the
  filter sees them;
* `Http`, `Http.step`: the server with its clients; `refused` records the requests that were
  refused a task;
* `Http.response`: what a client has been sent;
* `Http.Reported`: a client whose request was refused a task is only ever answered with 503;
* `Http.Room`: the tasks that a step adds fit into the queue together.

`reported_iff`: all clients are so reported in exactly the runs in which every step has room.  Where
one has not, a task is refused and its client can be answered otherwise: a replacement gets the
status of a plain `Error`, an upload a success without the file.
-/

namespace ProtostarNest.Knowledge

open Transition Queue

/-! ### Exceptions -/

/-- The exception of the interceptor, with the fields of its response that vary or are read. -/
structure ServiceUnavailableException where
  message : String
  data : QueueService.Status
  deriving DecidableEq

def ServiceUnavailableException.thrown (e : ServiceUnavailableException) : Thrown :=
  .HttpException SERVICE_UNAVAILABLE e.message

/-- `KnowledgeUploadBusyCheckInterceptor`; `ok` is the call of `next.handle()`. -/
def intercept (queue : QueueService ℕ) : Except ServiceUnavailableException Unit :=
  if queue.isBusy limits then
    .error ⟨"System is currently busy processing documents. Please try again later.",
      queue.getStatus limits⟩
  else .ok ()

def Exception.thrown : Exception → Thrown
  | .BadRequestException message => .HttpException 400 message
  | .ForbiddenException message => .HttpException 403 message
  | .NotFoundException message => .HttpException 404 message
  | .InternalServerErrorException message => .HttpException INTERNAL_SERVER_ERROR message
  | .PrismaError _ => .other
  | .Error _ => .other

/-- No exception of the service is reported as overload. -/
theorem Exception.catch_thrown_ne (e : Exception) :
    (GlobalExceptionFilter.catch e.thrown).statusCode ≠ SERVICE_UNAVAILABLE := by
  cases e <;> simp [thrown, GlobalExceptionFilter.catch, SERVICE_UNAVAILABLE,
    INTERNAL_SERVER_ERROR]

/-! ### Clients -/

/-- A client of the two routes: turned away, between the interceptor and the handler, or with
the request `i` at the service. -/
inductive Client
  | busy (e : ServiceUnavailableException)
  | checked (r : Request)
  | handled (i : ℕ)

/-- The request of a client at the service. -/
def Client.request : Client → Option ℕ
  | .handled i => some i
  | _ => none

theorem Client.request_eq_some {client : Client} {i : ℕ} :
    client.request = some i ↔ client = .handled i := by
  cases client <;> simp [request]

/-- The routes with the interceptor. -/
def Request.guarded : Request → Bool
  | .uploadFiles _ _ => true
  | .replaceFile _ _ _ _ => true
  | _ => false

/-- The tasks that the service adds when the request arrives. -/
def Request.adds : Request → ℕ
  | .replaceFile _ _ _ _ => 1
  | _ => 0

/-- The tasks that the next step of the request `i` adds: an upload within the quota has one for
each file. -/
def Sys.adds (s : Sys) (i : ℕ) : ℕ :=
  match s.pc? i with
  | some (.uploadAdmit _ files currentCount) =>
      if currentCount + files.length > PERSONAL_MAX_UPLOADS then 0 else files.length
  | _ => 0

/-- A task that `add` has rejected. -/
def Op.refused : Op → Bool
  | ⟨false, .done (.error (.Error message))⟩ => message = queueFullMessage
  | _ => false

/-- One of the tasks that the step from `s` to `s'` added was refused. -/
def Sys.Refuses (s s' : Sys) : Prop := (s'.ops.drop s.ops.length).any Op.refused = true

instance (s s' : Sys) : Decidable (s.Refuses s') := inferInstanceAs (Decidable (_ = true))

structure Http where
  sys : Sys
  clients : List Client
  refused : List ℕ

/-- A request reaches the interceptor of its route, the handler of a client is called, a request
of another route arrives, or a request makes a step. -/
inductive HttpEvent
  | intercept (r : Request)
  | handle (c : ℕ)
  | request (r : Request)
  | resume (i : ℕ) (env : Env)

namespace Http

def boot (w : World) : Http := ⟨Sys.boot w, [], []⟩

/-- After a step of the request `i`, which may have been refused one of the tasks it added. -/
def moved (h : Http) (i : ℕ) (s : Sys) : Http :=
  { h with
    sys := s
    refused := if h.sys.Refuses s then i :: h.refused else h.refused }

end Http

/-- The transitions. Between the interceptor and the handler anything else may happen. -/
def Http.step (cfg : Config) (h : Http) : HttpEvent → Option Http
  | .intercept r =>
      if r.guarded then
        match Knowledge.intercept h.sys.queue with
        | .error e => some { h with clients := h.clients ++ [.busy e] }
        | .ok () => some { h with clients := h.clients ++ [.checked r] }
      else none
  | .handle c =>
      match h.clients[c]? with
      | some (.checked r) =>
          (h.sys.receive r).map fun s =>
            { h.moved h.sys.ops.length s with
              clients := h.clients.set c (.handled h.sys.ops.length) }
      | _ => none
  | .request r =>
      if r.guarded then none else (h.sys.receive r).map fun s => { h with sys := s }
  | .resume i env => (Knowledge.step cfg h.sys (.resume i env)).map (h.moved i)

namespace Http

/-- What the client `c` has been sent; a success has the status of its route. -/
def response (h : Http) (c : ℕ) : Option (Except ErrorResponse Reply) :=
  match h.clients[c]? with
  | some (.busy e) => some (.error (GlobalExceptionFilter.catch e.thrown))
  | some (.handled i) =>
      match h.sys.ops[i]? with
      | some ⟨false, .done (.ok reply)⟩ => some (.ok reply)
      | some ⟨false, .done (.error e)⟩ => some (.error (GlobalExceptionFilter.catch e.thrown))
      | _ => none
  | _ => none

/-- Whatever happens from now on, a client whose request was refused a task receives 503 and
nothing else. -/
def Reported (cfg : Config) (h : Http) : Prop :=
  ∀ c i, h.clients[c]? = some (.handled i) → i ∈ h.refused →
    ∀ t, Reachable (Http.step cfg) h t → ∀ answer, t.response c = some answer →
      ∃ e, answer = .error e ∧ e.statusCode = SERVICE_UNAVAILABLE

/-- The number of tasks that a step adds. -/
def adds (h : Http) : HttpEvent → ℕ
  | .handle c =>
      match h.clients[c]? with
      | some (.checked r) => r.adds
      | _ => 0
  | .resume i _ => h.sys.adds i
  | _ => 0

/-- The tasks that a step adds fit next to those that run and wait. -/
def Room (h : Http) (e : HttpEvent) : Prop :=
  h.sys.queue.load + h.adds e ≤ CONCURRENCY + MAX_PENDING

end Http

/-! ### Refused tasks -/

section Batch

variable {cfg : Config} {w : World} {s s' : Sys}

theorem steady_of_reachable (h : Reachable (step cfg) (Sys.boot w) s) : s.queue.Steady limits := by
  obtain ⟨-, hactive, hqueue, hbusy⟩ := slots_of_reachable h
  exact ⟨hactive, hqueue, hbusy⟩

theorem add_cases (h : s.queue.Steady limits) (pc : Pc) :
    (s.queue.load = CONCURRENCY + MAX_PENDING ∧
      s.add pc = s.spawn (.throw (.Error queueFullMessage))) ∨
    ∃ queue : QueueService ℕ, queue.Steady limits ∧ queue.load = s.queue.load + 1 ∧
      s.add pc = { s with queue := queue, ops := s.ops ++ [⟨true, pc⟩] } := by
  unfold Sys.add
  cases hq : s.queue.enqueue limits s.ops.length with
  | none => exact Or.inl ⟨h.load_of_refused (by decide) hq, rfl⟩
  | some queue =>
    obtain ⟨hsteady, hload⟩ := h.enqueue hq
    exact Or.inr ⟨queue, hsteady, hload, rfl⟩

/-- The tasks of a batch are all accepted exactly when they fit; those that are not queued have
ended. -/
theorem addAll_refused (h : s.queue.Steady limits) (user : User) (files : List MulterFile) :
    ∃ tasks, (s.addAll user files).ops = s.ops ++ tasks ∧ tasks.length = files.length ∧
      (∀ t ∈ tasks, t.queued = false → ∃ result, t.pc = .done result) ∧
      (tasks.any Op.refused = true ↔
        CONCURRENCY + MAX_PENDING < s.queue.load + files.length) := by
  induction files generalizing s with
  | nil =>
    have hload : s.queue.load ≤ CONCURRENCY + MAX_PENDING := h.load_le
    refine ⟨[], (List.append_nil _).symm, rfl, by simp, ?_⟩
    simp only [List.any_nil, List.length_nil]
    exact iff_of_false Bool.false_ne_true (by omega)
  | cons file files ih =>
    rcases add_cases h (.processPut user file) with ⟨hload, hadd⟩ | ⟨queue, hsteady, hload, hadd⟩
    · obtain ⟨tasks, htasks, hlen, hdone, -⟩ :=
        ih (s := s.spawn (.throw (.Error queueFullMessage))) h
      have hlt : CONCURRENCY + MAX_PENDING < s.queue.load + (file :: files).length := by
        rw [List.length_cons]
        omega
      refine ⟨⟨false, .throw (.Error queueFullMessage)⟩ :: tasks, ?_, ?_, ?_, ?_⟩
      · rw [Sys.addAll, hadd, htasks, Sys.spawn, List.append_assoc, List.singleton_append]
      · rw [List.length_cons, List.length_cons, hlen]
      · intro t ht hqueued
        rcases List.mem_cons.1 ht with rfl | ht
        · exact ⟨_, rfl⟩
        · exact hdone t ht hqueued
      · exact ⟨fun _ => hlt, fun _ => by simp [Op.refused, Pc.throw]⟩
    · obtain ⟨tasks, htasks, hlen, hdone, hany⟩ :=
        ih (s := { s with queue := queue, ops := s.ops ++ [⟨true, .processPut user file⟩] }) hsteady
      refine ⟨⟨true, .processPut user file⟩ :: tasks, ?_, ?_, ?_, ?_⟩
      · rw [Sys.addAll, hadd, htasks, List.append_assoc, List.singleton_append]
      · rw [List.length_cons, List.length_cons, hlen]
      · intro t ht hqueued
        rcases List.mem_cons.1 ht with rfl | ht
        · cases hqueued
        · exact hdone t ht hqueued
      · simp only [List.any_cons, Op.refused, Bool.false_or, hany, hload, List.length_cons]
        omega

/-- A step of a request adds no task, or it is the step of an upload after its count. -/
theorem resume_cases {i : ℕ} {env : Env} (h : step cfg s (.resume i env) = some s') :
    (s'.ops.length = s.ops.length ∧ ∀ user files currentCount,
      s.pc? i = some (.uploadAdmit user files currentCount) →
        currentCount + files.length > PERSONAL_MAX_UPLOADS) ∨
    ∃ op user files currentCount, s.ops[i]? = some op ∧
      op.pc = .uploadAdmit user files currentCount ∧
      currentCount + files.length ≤ PERSONAL_MAX_UPLOADS ∧
      s' = (s.addAll user files).setPc i op
        (.uploadJoin user (List.range' s.ops.length files.length)) := by
  obtain ⟨-, op, hop, hres⟩ := step_resume_iff.1 h
  have hpc? := s.pc?_of_getElem? hop
  cases hres with
  | accepted user files currentCount hpc =>
    unfold Sys.accept
    split_ifs with hlimit
    · refine Or.inl ⟨List.length_set, fun user' files' n' hadm => ?_⟩
      rw [hpc?, hpc] at hadm
      cases hadm
      exact hlimit
    · exact Or.inr ⟨op, user, files, currentCount, hop, hpc, Nat.not_lt.1 hlimit, rfl⟩
  | joined user tasks result hpc hresult =>
    refine Or.inl ⟨List.length_set, fun user' files' n' hadm => ?_⟩
    rw [hpc?, hpc] at hadm
    cases hadm
  | released result hpc hqueued =>
    refine Or.inl ⟨List.length_set, fun user' files' n' hadm => ?_⟩
    rw [hpc?, hpc] at hadm
    cases hadm
  | called w pc hcall hadv =>
    refine Or.inl ⟨List.length_set, fun user files n hadm => ?_⟩
    rw [hpc?] at hadm
    rw [Option.some.inj hadm] at hcall
    exact hcall.elim

theorem refuses_spawn (h : s.queue.Steady limits) {pc : Pc} (hpc : ∀ e, pc ≠ .throw e) :
    s.Refuses (s.spawn pc) ↔ CONCURRENCY + MAX_PENDING < s.queue.load + 0 := by
  have hload : s.queue.load ≤ CONCURRENCY + MAX_PENDING := h.load_le
  have hrefused : Op.refused ⟨false, pc⟩ = false := by
    unfold Op.refused
    split
    · rename_i heq
      exact absurd (congrArg Op.pc heq) (hpc _)
    · rfl
  simp only [Sys.Refuses, Sys.spawn, List.drop_left, List.any_cons, List.any_nil, hrefused]
  exact iff_of_false Bool.false_ne_true (by omega)

/-- A request is refused its task on arrival exactly when there is no room for it. -/
theorem receive_refuses (h : s.queue.Steady limits) {r : Request} (hs : s.receive r = some s') :
    s.Refuses s' ↔ CONCURRENCY + MAX_PENDING < s.queue.load + r.adds := by
  cases r with
  | replaceFile user id title file =>
    obtain rfl := Option.some.inj hs
    rcases add_cases h (.replaceFind user id title file) with
      ⟨hload, hadd⟩ | ⟨queue, hsteady, hload, hadd⟩
    · have hlt : CONCURRENCY + MAX_PENDING < s.queue.load + 1 := by omega
      rw [hadd]
      exact ⟨fun _ => hlt, fun _ => by simp [Sys.Refuses, Sys.spawn, Op.refused, Pc.throw]⟩
    · have hle : queue.load ≤ CONCURRENCY + MAX_PENDING := hsteady.load_le
      rw [hadd]
      simp only [Sys.Refuses, List.drop_left, List.any_cons, List.any_nil, Op.refused,
        Request.adds]
      exact iff_of_false Bool.false_ne_true (by omega)
  | updateDocStatusViaWebhook dto answers =>
    simp only [Sys.receive] at hs
    split_ifs at hs
    obtain rfl := Option.some.inj hs
    exact refuses_spawn h fun e heq => by cases heq
  | _ =>
    obtain rfl := Option.some.inj hs
    exact refuses_spawn h fun e heq => by cases heq

/-- A step of a request has a task refused exactly when there is no room for all that it adds. -/
theorem resume_refuses (h : s.queue.Steady limits) {i : ℕ} {env : Env}
    (hs : step cfg s (.resume i env) = some s') :
    s.Refuses s' ↔ CONCURRENCY + MAX_PENDING < s.queue.load + s.adds i := by
  rcases resume_cases hs with ⟨hlen, hlimit⟩ | ⟨op, user, files, n, hop, hpc, hlimit, rfl⟩
  · have hload : s.queue.load ≤ CONCURRENCY + MAX_PENDING := h.load_le
    have hadds : s.adds i = 0 := by
      unfold Sys.adds
      split
      · rename_i user files n hpc
        rw [if_pos (hlimit user files n hpc)]
      · rfl
    rw [Sys.Refuses, ← hlen, List.drop_length, hadds]
    exact iff_of_false Bool.false_ne_true (by omega)
  · obtain ⟨tasks, htasks, -, -, hany⟩ := addAll_refused h user files
    have hadds : s.adds i = files.length := by
      rw [Sys.adds, s.pc?_of_getElem? hop, hpc]
      exact if_neg (Nat.not_lt.2 hlimit)
    have hi := (List.getElem?_eq_some_iff.1 hop).1
    rw [hadds, ← hany, Sys.Refuses, Sys.setPc, htasks, List.set_append_left _ _ hi,
      List.drop_left' List.length_set]

end Batch

/-! ### The server under its clients -/

namespace Http

variable {cfg : Config} {w : World} {h h' : Http} {e : HttpEvent}

/-- The server sees the calls of the handlers, the other requests and the steps. -/
theorem simulates (cfg : Config) :
    Simulates (Http.step cfg) (Knowledge.step cfg) (fun _ => True) Http.sys := by
  intro h e h' _ hs
  cases e with
  | intercept r =>
    simp only [Http.step] at hs
    split_ifs at hs
    split at hs <;> obtain rfl := Option.some.inj hs <;> exact ⟨[], rfl⟩
  | handle c =>
    simp only [Http.step] at hs
    split at hs
    · rename_i r hc
      obtain ⟨s, hreceive, rfl⟩ := Option.map_eq_some_iff.1 hs
      exact ⟨[.request r], run_concat _ (run_nil _ _) hreceive⟩
    · cases hs
  | request r =>
    simp only [Http.step] at hs
    split_ifs at hs
    obtain ⟨s, hreceive, rfl⟩ := Option.map_eq_some_iff.1 hs
    exact ⟨[.request r], run_concat _ (run_nil _ _) hreceive⟩
  | resume i env =>
    obtain ⟨s, hresume, rfl⟩ := Option.map_eq_some_iff.1 hs
    exact ⟨[.resume i env], run_concat _ (run_nil _ _) hresume⟩

theorem sys_reachable (hr : Reachable (Http.step cfg) (boot w) h) :
    Reachable (Knowledge.step cfg) (Sys.boot w) h.sys :=
  (simulates cfg).reachable (fun _ _ _ _ _ => trivial) trivial hr

/-- Steps of requests can be made with the clients as they are. -/
theorem lift_run {es : List Event} {s : Sys} (hes : ∀ e ∈ es, ∃ i env, e = .resume i env)
    (hrun : run (Knowledge.step cfg) h.sys es = some s) :
    ∃ t, Reachable (Http.step cfg) h t ∧ t.sys = s ∧ t.clients = h.clients := by
  induction es generalizing h with
  | nil =>
    cases hrun
    exact ⟨h, .refl h, rfl, rfl⟩
  | cons e es ih =>
    obtain ⟨i, env, rfl⟩ := hes e List.mem_cons_self
    obtain ⟨s₁, hs₁, hrun⟩ := (run_cons_eq_some _).1 hrun
    have hstep : Http.step cfg h (.resume i env) = some (h.moved i s₁) := by
      rw [Http.step, hs₁, Option.map_some]
    obtain ⟨t, ht, hsys, hclients⟩ :=
      ih (h := h.moved i s₁) (fun e he => hes e (List.mem_cons_of_mem _ he)) hrun
    exact ⟨t, ((Reachable.refl h).tail hstep).trans ht, hsys, hclients⟩

/-! ### Room -/

theorem moved_of_room {i n : ℕ} {s : Sys} (hroom : h.sys.queue.load + n ≤ CONCURRENCY + MAX_PENDING)
    (hiff : h.sys.Refuses s ↔ CONCURRENCY + MAX_PENDING < h.sys.queue.load + n) :
    (h.moved i s).refused = h.refused :=
  if_neg fun hrefuses => Nat.not_lt.2 hroom (hiff.1 hrefuses)

/-- A step with room for the tasks that it adds is refused none of them. -/
theorem refused_of_room (hr : Reachable (Http.step cfg) (boot w) h) (hroom : h.Room e)
    (hs : Http.step cfg h e = some h') : h'.refused = h.refused := by
  have hsteady := steady_of_reachable (sys_reachable hr)
  cases e with
  | intercept r =>
    simp only [Http.step] at hs
    split_ifs at hs
    split at hs <;> obtain rfl := Option.some.inj hs <;> rfl
  | handle c =>
    simp only [Http.step] at hs
    split at hs
    · rename_i r hc
      obtain ⟨s, hreceive, rfl⟩ := Option.map_eq_some_iff.1 hs
      simp only [Room, adds, hc] at hroom
      exact moved_of_room hroom (receive_refuses hsteady hreceive)
    · cases hs
  | request r =>
    simp only [Http.step] at hs
    split_ifs at hs
    obtain ⟨s, -, rfl⟩ := Option.map_eq_some_iff.1 hs
    rfl
  | resume i env =>
    obtain ⟨s, hresume, rfl⟩ := Option.map_eq_some_iff.1 hs
    exact moved_of_room hroom (resume_refuses hsteady hresume)

/-- While every step has room, no request is ever refused a task. -/
theorem refused_of_meets {es : List HttpEvent}
    (hroom : Meets (Http.step cfg) Room (boot w) es) :
    ∀ t, Visits (Http.step cfg) (boot w) es t → t.refused = [] := by
  have hkeep : ∀ (h : Http) (e : HttpEvent) (h' : Http),
      (Reachable (Http.step cfg) (boot w) h ∧ h.refused = []) → h.Room e →
        Http.step cfg h e = some h' → Reachable (Http.step cfg) (boot w) h' ∧ h'.refused = [] := by
    rintro h e h' ⟨hr, hnil⟩ hroom hs
    exact ⟨hr.tail hs, (refused_of_room hr hroom hs).trans hnil⟩
  intro t ht
  exact (invariant_of_meets hkeep ⟨.refl _, rfl⟩ hroom t ht).2

/-! ### The clients of the uploads -/

end Http

/-- Control points of `uploadFiles` before its tasks are added. -/
def Pc.Uploading : Pc → Prop
  | .uploadCount _ _ => True
  | .uploadAdmit _ _ _ => True
  | _ => False

theorem Pc.TaskOf.not_uploading {user : User} {pc : Pc} (h : pc.TaskOf user) : ¬ pc.Uploading := by
  cases h <;> exact id

theorem Pc.Local.not_uploading {pc pc' : Pc} (h : pc.Local pc') : ¬ pc'.Uploading := by
  cases h <;> exact id

theorem Advance.uploading {cfg : Config} {w w' : World} {env : Env} {pc pc' : Pc}
    (h : Advance cfg w env pc w' pc') (hpc : pc'.Uploading) : pc.Uploading := by
  cases h with
  | counted user files => trivial
  | selected => revert hpc; cases env.order.take DISPATCH_TAKE <;> exact False.elim
  | pushFailed doc rest => cases rest <;> exact hpc.elim
  | marked doc rest => cases rest <;> exact hpc.elim
  | markFailed doc rest => cases rest <;> exact hpc.elim
  | _ => exact hpc.elim

/-- An upload that has not added its tasks came as one. -/
theorem uploading_of_resume {cfg : Config} {s s' : Sys} {i j : ℕ} {env : Env} {op' : Op}
    (h : step cfg s (.resume i env) = some s') (hop' : s'.ops[j]? = some op')
    (hpc : op'.pc.Uploading) : ∃ op, s.ops[j]? = some op ∧ op.pc.Uploading := by
  rcases step_cases h with ⟨r, op, he, -⟩ | ⟨i', env', op, he, hop, hcases⟩
  · cases he
  cases he
  rcases hcases with ⟨w, pc, hadv, -, hops⟩ | ⟨op₁, hloc, -, hops⟩ |
    ⟨user, files, n, tasks, ids, -, -, -, htask, -, hops⟩
  · rw [hops] at hop'
    rcases getElem?_set_cases hop' with ⟨rfl, rfl⟩ | ⟨-, hold⟩
    · exact ⟨op, hop, hadv.uploading hpc⟩
    · exact ⟨op', hold, hpc⟩
  · rw [hops] at hop'
    rcases getElem?_set_cases hop' with ⟨-, rfl⟩ | ⟨-, hold⟩
    · exact absurd hpc hloc.not_uploading
    · exact ⟨op', hold, hpc⟩
  · rw [hops] at hop'
    rcases getElem?_set_cases hop' with ⟨-, rfl⟩ | ⟨-, hold⟩
    · exact hpc.elim
    · rcases getElem?_append_cases hold with hold | ⟨k, -, hk⟩
      · exact ⟨op', hold, hpc⟩
      · exact absurd hpc (htask op' (List.mem_of_getElem? hk)).not_uploading

/-- Only the guarded routes bring an upload. -/
theorem receive_uploading {s s' : Sys} {r : Request} (h : s.receive r = some s') :
    ∃ op, s'.ops = s.ops ++ [op] ∧ (op.pc.Uploading → r.guarded = true) := by
  obtain ⟨op, -, hops, -, -⟩ := receive_cases h
  refine ⟨op, hops, fun hpc => ?_⟩
  cases r with
  | uploadFiles | replaceFile => rfl
  | updateDocStatusViaWebhook dto answers =>
    simp only [Sys.receive] at h
    split_ifs at h
    obtain rfl := Option.some.inj h
    obtain rfl := List.singleton_injective (List.append_cancel_left hops)
    exact hpc.elim
  | deleteFile | findAll | dispatchPendingTasks =>
    obtain rfl := Option.some.inj h
    obtain rfl := List.singleton_injective (List.append_cancel_left hops)
    exact hpc.elim

namespace Http

variable {cfg : Config} {w : World} {h h' : Http} {e : HttpEvent}

/-- Each upload that has not added its tasks has a client. -/
def Attended (h : Http) : Prop :=
  ∀ (i : ℕ) (op : Op), h.sys.ops[i]? = some op → op.pc.Uploading →
    ∃ c : ℕ, h.clients[c]? = some (.handled i)

theorem attended_step (ha : h.Attended) (hs : Http.step cfg h e = some h') : h'.Attended := by
  intro i op hop hpc
  cases e with
  | intercept r =>
    simp only [Http.step] at hs
    split_ifs at hs
    split at hs <;> obtain rfl := Option.some.inj hs <;> obtain ⟨c, hc⟩ := ha i op hop hpc <;>
      exact ⟨c, by rw [List.getElem?_append_left (List.getElem?_eq_some_iff.1 hc).1]; exact hc⟩
  | handle c =>
    simp only [Http.step] at hs
    split at hs
    · rename_i r hc
      obtain ⟨s, hreceive, rfl⟩ := Option.map_eq_some_iff.1 hs
      obtain ⟨op', hops, -⟩ := receive_uploading hreceive
      have hop : s.ops[i]? = some op := hop
      rw [hops] at hop
      rcases getElem?_concat_cases hop with hold | ⟨rfl, -⟩
      · obtain ⟨c', hc'⟩ := ha i op hold hpc
        have hne : c ≠ c' := by
          rintro rfl
          rw [hc] at hc'
          cases hc'
        exact ⟨c', by rw [List.getElem?_set_ne hne]; exact hc'⟩
      · exact ⟨c, List.getElem?_set_self (List.getElem?_eq_some_iff.1 hc).1⟩
    · cases hs
  | request r =>
    simp only [Http.step] at hs
    split_ifs at hs with hguard
    obtain ⟨s, hreceive, rfl⟩ := Option.map_eq_some_iff.1 hs
    obtain ⟨op', hops, hnew⟩ := receive_uploading hreceive
    have hop : s.ops[i]? = some op := hop
    rw [hops] at hop
    rcases getElem?_concat_cases hop with hold | ⟨-, rfl⟩
    · exact ha i op hold hpc
    · exact absurd (hnew hpc) hguard
  | resume j env =>
    obtain ⟨s, hresume, rfl⟩ := Option.map_eq_some_iff.1 hs
    obtain ⟨op₀, hold, hpc₀⟩ := uploading_of_resume hresume hop hpc
    exact ha i op₀ hold hpc₀

theorem attended_of_reachable (hr : Reachable (Http.step cfg) (boot w) h) : h.Attended :=
  invariant (fun _ _ _ ha hs => attended_step ha hs) (fun _ _ hop => by cases hop) hr

end Http

/-! ### A refused upload is answered -/

/-- The `Promise.all` of an upload resolves once its tasks have ended. -/
theorem exists_joined {s : Sys} {tasks : List ℕ}
    (h : ∀ t ∈ tasks, ∃ op result, s.ops[t]? = some op ∧ op.queued = false ∧ op.pc = .done result) :
    ∃ values, s.joined tasks = some values := by
  have hvalue : ∀ t ∈ tasks, ∃ v, (s.ops[t]?.bind Op.value) = some v := by
    intro t ht
    obtain ⟨⟨queued, pc⟩, result, hop, rfl, rfl⟩ := h t ht
    rw [hop, Option.bind_some]
    unfold Op.value
    split
    · exact ⟨_, rfl⟩
    · exact ⟨_, rfl⟩
    · rename_i hdone
      exact absurd rfl (hdone result)
  unfold Sys.joined
  clear h
  induction tasks with
  | nil => exact ⟨[], rfl⟩
  | cons t tasks ih =>
    obtain ⟨v, hv⟩ := hvalue t List.mem_cons_self
    obtain ⟨vs, hvs⟩ := ih fun t ht => hvalue t (List.mem_cons_of_mem _ ht)
    exact ⟨v :: vs, by rw [List.mapM_cons, hv, hvs]; rfl⟩

section Answer

variable {cfg : Config} {w : World} {s : Sys} {i : ℕ} {op : Op} {user : User} {tasks : List ℕ}

/-- After its `Promise.all` an upload is one query away from its answer. -/
theorem answer_of_joined (h : Reachable (step cfg) (Sys.boot w) s) (hop : s.ops[i]? = some op)
    (hq : op.queued = false) (hpc : op.pc = .uploadJoin user tasks)
    {values : List (Option KnowledgeDoc)} (hvalues : s.joined tasks = some values) :
    ∃ t reply, run (step cfg) s [.resume i {}, .resume i {}] = some t ∧
      t.ops[i]? = some ⟨false, .done (.ok reply)⟩ := by
  obtain ⟨queued, pc⟩ := op
  obtain rfl : queued = false := hq
  obtain rfl : pc = .uploadJoin user tasks := hpc
  have hi := (List.getElem?_eq_some_iff.1 hop).1
  let counting : Op := ⟨false, .formatCount user (values.filterMap id)⟩
  let s₁ : Sys := { s with ops := s.ops.set i counting }
  have hstep₁ : step cfg s (.resume i {}) = some s₁ :=
    step_resume_iff.2 ⟨not_waiting h hop rfl, _, hop, .joined user tasks values rfl hvalues⟩
  have hop₁ : s₁.ops[i]? = some counting := List.getElem?_set_self hi
  have hi₁ : i < s₁.ops.length := by rw [List.length_set]; exact hi
  let reply := Reply.response (formatResponse (values.filterMap id) (s.world.count user.id))
  let s₂ : Sys := { s₁ with ops := s₁.ops.set i ⟨false, .done (.ok reply)⟩ }
  have hstep₂ : step cfg s₁ (.resume i {}) = some s₂ :=
    step_resume_iff.2 ⟨not_waiting (h.tail hstep₁) hop₁ rfl, counting, hop₁,
      .called s.world (.done (.ok reply)) trivial rfl⟩
  exact ⟨s₂, reply, by rw [run_cons_some _ _ hstep₁, run_cons_some _ _ hstep₂, run_nil],
    List.getElem?_set_self hi₁⟩

/-- **An upload whose tasks have been added can come to a success**, whatever became of them. -/
theorem join_answered (h : Reachable (step cfg) (Sys.boot w) s) (hop : s.ops[i]? = some op)
    (hpc : op.pc = .uploadJoin user tasks)
    (htasks : ∀ t ∈ tasks, ∃ op, s.ops[t]? = some op ∧
      (op.queued = false → ∃ result, op.pc = .done result)) :
    ∃ es t reply, run (step cfg) s es = some t ∧ (∀ e ∈ es, ∃ i env, e = .resume i env) ∧
      t.ops[i]? = some ⟨false, .done (.ok reply)⟩ := by
  have hq : op.queued = false := by
    by_contra hq
    have htask := queuesTasks_of_reachable h op (List.mem_of_getElem? hop) (by simpa using hq)
    rw [hpc] at htask
    exact htask
  -- the queue runs empty, and the upload does not move meanwhile
  obtain ⟨es, t, hrun, hes, hset, hall⟩ := settle h
  have hopt := hset.keeps hop hq
  obtain ⟨values, hvalues⟩ : ∃ values, t.joined tasks = some values := by
    refine exists_joined fun k hk => ?_
    obtain ⟨opk, hopk, hdone⟩ := htasks k hk
    obtain ⟨opk', hopk', hsettles⟩ := hset.settles k opk hopk
    have hqk := hall opk' (List.mem_of_getElem? hopk')
    rcases hsettles with rfl | ⟨-, hdone'⟩
    · obtain ⟨result, hresult⟩ := hdone hqk
      exact ⟨opk', result, hopk', hqk, hresult⟩
    · obtain ⟨result, hresult⟩ := hdone' hqk
      exact ⟨opk', result, hopk', hqk, hresult⟩
  obtain ⟨t', reply, hrun', hop'⟩ := answer_of_joined (h.trans ⟨es, hrun⟩) hopt hq hpc hvalues
  refine ⟨es ++ [.resume i {}, .resume i {}], t', reply,
    (run_append_eq_some _).2 ⟨t, hrun, hrun'⟩, ?_, hop'⟩
  intro e he
  rcases List.mem_append.1 he with he | he
  · exact hes e he
  · refine ⟨i, {}, ?_⟩
    simpa using he

end Answer

/-! ### The condition is exact -/

namespace Http

variable {cfg : Config} {w : World} {h h' : Http} {e : HttpEvent}

/-- A client at the service is answered by its request. -/
theorem response_of_done {c i : ℕ} {reply : Reply} (hc : h.clients[c]? = some (.handled i))
    (hop : h.sys.ops[i]? = some ⟨false, .done (.ok reply)⟩) : h.response c = some (.ok reply) := by
  simp only [response, hc, hop]

/-- A replacement that is refused on arrival is answered at once, with the status of a plain
`Error`. -/
theorem not_reported_of_handle {c : ℕ} (hr : Reachable (Http.step cfg) (boot w) h)
    (hroom : ¬ h.Room (.handle c)) (hs : Http.step cfg h (.handle c) = some h') :
    ¬ h'.Reported cfg := by
  have hsteady := steady_of_reachable (sys_reachable hr)
  have hload : h.sys.queue.load ≤ CONCURRENCY + MAX_PENDING := hsteady.load_le
  simp only [Http.step] at hs
  split at hs
  · rename_i r hc
    obtain ⟨s, hreceive, rfl⟩ := Option.map_eq_some_iff.1 hs
    simp only [Room, adds, hc, Nat.not_le] at hroom
    have hrefuses := (receive_refuses hsteady hreceive).2 hroom
    cases r with
    | replaceFile user id title file =>
      obtain rfl := Option.some.inj hreceive
      have hadd : h.sys.add (.replaceFind user id title file) =
          h.sys.spawn (.throw (.Error queueFullMessage)) := by
        rcases add_cases hsteady (.replaceFind user id title file) with
          ⟨-, hadd⟩ | ⟨queue, hqueue, hload', -⟩
        · exact hadd
        · have hle : queue.load ≤ CONCURRENCY + MAX_PENDING := hqueue.load_le
          simp only [Request.adds] at hroom
          omega
      have hlt := (List.getElem?_eq_some_iff.1 hc).1
      intro hreported
      obtain ⟨e, he, hstatus⟩ := hreported c h.sys.ops.length
        (List.getElem?_set_self hlt) (by simp [moved, hrefuses]) _ (.refl _)
        (.error (GlobalExceptionFilter.catch (Exception.Error queueFullMessage).thrown))
        (by simp [response, moved, hadd, Sys.spawn, Pc.throw, hlt])
      cases he
      exact Exception.catch_thrown_ne _ hstatus
    | _ =>
      simp only [Request.adds] at hroom
      omega
  · cases hs

/-- The tasks of an upload, after they have been added. -/
theorem getElem?_accepted {s : Sys} {tasks : List Op} {op : Op} {i k : ℕ}
    (hop : s.ops[i]? = some op) (op' : Op) (hk : k ∈ List.range' s.ops.length tasks.length) :
    ∃ t ∈ tasks, ((s.ops ++ tasks).set i op')[k]? = some t := by
  obtain ⟨hle, hlt⟩ := List.mem_range'_1.1 hk
  have hi := (List.getElem?_eq_some_iff.1 hop).1
  have hidx : k - s.ops.length < tasks.length := by omega
  refine ⟨tasks[k - s.ops.length], List.getElem_mem hidx, ?_⟩
  rw [List.getElem?_set_ne (by omega), List.getElem?_append_right hle,
    List.getElem?_eq_getElem hidx]

/-- An upload that is refused one of its tasks can still be answered with a success. -/
theorem not_reported_of_resume {i : ℕ} {env : Env}
    (hr : Reachable (Http.step cfg) (boot w) h) (hroom : ¬ h.Room (.resume i env))
    (hs : Http.step cfg h (.resume i env) = some h') : ¬ h'.Reported cfg := by
  have hsys := sys_reachable hr
  have hsteady := steady_of_reachable hsys
  obtain ⟨s, hresume, rfl⟩ := Option.map_eq_some_iff.1 hs
  have hroom : CONCURRENCY + MAX_PENDING < h.sys.queue.load + h.sys.adds i := Nat.not_le.1 hroom
  have hrefuses := (resume_refuses hsteady hresume).2 hroom
  rcases resume_cases hresume with ⟨hlen, -⟩ | ⟨op, user, files, n, hop, hpc, -, hs'⟩
  · rw [Sys.Refuses, ← hlen, List.drop_length] at hrefuses
    cases hrefuses
  · obtain ⟨c, hc⟩ := attended_of_reachable hr i op hop (by rw [hpc]; trivial)
    obtain ⟨tasks, htasks, hlen, hdone, -⟩ := addAll_refused hsteady user files
    let joining := Pc.uploadJoin user (List.range' h.sys.ops.length files.length)
    have hops : s.ops = (h.sys.ops ++ tasks).set i { op with pc := joining } := by
      rw [hs', Sys.setPc, htasks]
    have hi := (List.getElem?_eq_some_iff.1 hop).1
    have hopi : s.ops[i]? = some { op with pc := joining } := by
      rw [hops]
      exact List.getElem?_set_self (by rw [List.length_append]; omega)
    obtain ⟨es, t, reply, hrun, hes, hopt⟩ := join_answered (hsys.tail hresume) hopi rfl
      (fun k hk => by
        obtain ⟨t, ht, hget⟩ := getElem?_accepted hop { op with pc := joining } (hlen ▸ hk)
        exact ⟨t, by rw [hops]; exact hget, hdone t ht⟩)
    obtain ⟨u, hu, rfl, hclients⟩ := lift_run (h := h.moved i s) hes hrun
    have hcu : u.clients[c]? = some (.handled i) := by rw [hclients]; exact hc
    intro hreported
    obtain ⟨e, he, -⟩ := hreported c i hc (by simp [moved, hrefuses]) u hu _
      (response_of_done hcu hopt)
    cases he

/-- A step without room for its tasks leaves a client that can be answered otherwise. -/
theorem not_reported_of_not_room (hr : Reachable (Http.step cfg) (boot w) h)
    (hroom : ¬ h.Room e) (hs : Http.step cfg h e = some h') : ¬ h'.Reported cfg := by
  have hload : h.sys.queue.load ≤ CONCURRENCY + MAX_PENDING :=
    (steady_of_reachable (sys_reachable hr)).load_le
  cases e with
  | intercept r => exact absurd hload hroom
  | request r => exact absurd hload hroom
  | handle c => exact not_reported_of_handle hr hroom hs
  | resume i env => exact not_reported_of_resume hr hroom hs

/-- **In every run each client whose request is refused a task receives 503 and nothing else, if
and only if each step finds room in the queue for all the tasks that it adds.** -/
theorem reported_iff (cfg : Config) (w : World) (es : List HttpEvent) :
    (∀ h, Visits (Http.step cfg) (boot w) es h → h.Reported cfg) ↔
      Meets (Http.step cfg) Room (boot w) es := by
  constructor
  · intro hreported
    refine meets_of_visits fun t e u ht hu hstep => ?_
    by_contra hroom
    exact not_reported_of_not_room ht.reachable hroom hstep (hreported u hu)
  · intro hroom h hv c i hc hi
    rw [refused_of_meets hroom h hv] at hi
    cases hi

/-! ### Two batches -/

def tenFiles : List MulterFile := List.replicate 10 exampleFile

/-- An upload of ten files takes three slots and seven places; then another one comes. -/
def twoBatches : List HttpEvent :=
  [.intercept (.uploadFiles alice tenFiles), .handle 0, .resume 0 {}, .resume 0 {},
    .intercept (.uploadFiles ⟨"bob"⟩ tenFiles), .handle 1, .resume 11 {}, .resume 11 {}]

/-- The steps of one task without a failure. -/
def taskSteps (i : ℕ) : List HttpEvent :=
  [.resume i {}, .resume i { id := toString i }, .resume i {}]

/-- All tasks run, and the second upload is answered. -/
def finishBatches : List HttpEvent :=
  (List.range' 1 10 ++ [12, 13, 14]).flatMap taskSteps ++ [.resume 11 {}, .resume 11 {}]

/-- The documents that an answer reports. -/
def listed : Except ErrorResponse Reply → Option (List String)
  | .ok (.response r) => some (r.uploadedData.map UploadedData.id)
  | _ => none

/-- The client of the second upload, which was refused seven tasks, is sent a success with three
documents. -/
theorem two_batches_not_reported :
    ∃ h t answer, run (Http.step exampleConfig) (boot World.empty) twoBatches = some h ∧
      run (Http.step exampleConfig) h finishBatches = some t ∧ h.refused = [11] ∧
      h.clients[1]?.bind Client.request = some 11 ∧ t.response 1 = some answer ∧
      listed answer = some ["12", "13", "14"] ∧ ¬ h.Reported exampleConfig := by
  obtain ⟨h, hrun, hval⟩ := Option.map_eq_some_iff.1
    (show (run (Http.step exampleConfig) (boot World.empty) twoBatches).map
        (fun h => (h.refused, h.clients[1]?.bind Client.request)) = some ([11], some 11) by
      decide +kernel)
  obtain ⟨hrefused, hclient⟩ := Prod.mk.inj hval
  obtain ⟨t, hrun', hanswer⟩ := Option.bind_eq_some_iff.1
    (show ((run (Http.step exampleConfig) (boot World.empty) (twoBatches ++ finishBatches)).bind
        fun t => (t.response 1).bind listed) = some ["12", "13", "14"] by decide +kernel)
  rw [run_append, hrun, Option.bind_some] at hrun'
  obtain ⟨answer, hresponse, hlisted⟩ := Option.bind_eq_some_iff.1 hanswer
  refine ⟨h, t, answer, hrun, hrun', hrefused, hclient, hresponse, hlisted, fun hreported => ?_⟩
  obtain ⟨client, hc, hhandled⟩ := Option.bind_eq_some_iff.1 hclient
  obtain rfl := Client.request_eq_some.1 hhandled
  obtain ⟨e, rfl, -⟩ :=
    hreported 1 11 hc (by rw [hrefused]; exact List.mem_singleton_self _) t ⟨_, hrun'⟩ _ hresponse
  cases hlisted

end Http

end ProtostarNest.Knowledge
