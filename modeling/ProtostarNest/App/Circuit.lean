import ProtostarNest.App.Callers
import ProtostarNest.Chat.Jobs
import ProtostarNest.Chat.Slots

/-!
# The circuit breaker in front of the chat

`AiCircuitGuard` reads the flag when a request arrives; the handler, the connection and the queued
question come later, when the flag may be off again.

* `monitorEvents`, `monitor_run`: the run of the monitor inside of a run of the server;
* `LetIn`: a request for a route was let in on the word of a worker;
* `letIn_of_run`: so was each request behind an open connection, a queued question or a task.
-/

namespace ProtostarNest.App

open Transition

variable {α : Type*} {cfg : Settings α}

def monitorEvents (es : List (Event cfg)) : List Monitoring.Event :=
  es.filterMap fun
    | .monitor e => some e
    | _ => none

/-- The monitor runs by itself. -/
theorem monitor_run {es : List (Event cfg)} {s : Server cfg}
    (h : run step (boot cfg) es = some s) :
    run Monitoring.step .boot (monitorEvents es) = some s.monitor := by
  induction es using List.reverseRecOn generalizing s with
  | nil => cases h; rfl
  | append_singleton es e ih =>
    obtain ⟨u, hu, hstep⟩ := (run_concat_eq_some step).1 h
    have hbefore := ih hu
    unfold monitorEvents at hbefore ⊢
    rw [List.filterMap_append]
    cases step_sound hstep with
    | monitored me monitor hm => exact run_concat _ hbefore hm
    | _ => simpa using hbefore

/-- A request for this route arrived while the last synchronization that had ended had counted a
worker with a fresh heartbeat. -/
def LetIn (es : List (Event cfg)) (route : Route cfg) : Prop :=
  ∃ pre req post, es = pre ++ .arrive req :: post ∧ req.route = route ∧
    Monitoring.Backed (monitorEvents pre)

theorem LetIn.concat {es : List (Event cfg)} {route : Route cfg} (h : LetIn es route)
    (e : Event cfg) : LetIn (es ++ [e]) route := by
  obtain ⟨pre, req, post, rfl, hroute, hbacked⟩ := h
  exact ⟨pre, req, post ++ [e], by simp, hroute, hbacked⟩

/-- The request behind a connection. -/
def Opened (es : List (Event cfg)) (c : Chat.Connection) : Prop :=
  ∃ r, LetIn es (.stream r) ∧ c.uuid = r.targetUuid ∧ c.sessionId = r.sessionId

/-- The question behind a job or a task. -/
def Asked (es : List (Event cfg)) (jobId : String) : Prop :=
  ∃ dto env, LetIn es (.getQuestion dto env) ∧ env.jobId = jobId

/-- The chat serves only what the guard has let through. -/
structure Guarded (es : List (Event cfg)) (chat : Chat.ChatServer α) : Prop where
  live : ∀ c ∈ chat.live, Opened es c
  jobs : ∀ jobId ∈ chat.redis.jobQueue, Asked es jobId
  tasks : ∀ t ∈ chat.redis.tasks, Asked es t.2.jobId

theorem Guarded.concat {es : List (Event cfg)} {chat : Chat.ChatServer α} (h : Guarded es chat)
    (e : Event cfg) : Guarded (es ++ [e]) chat := by
  have hasked : ∀ jobId, Asked es jobId → Asked (es ++ [e]) jobId := by
    rintro jobId ⟨dto, env, hlet, hid⟩
    exact ⟨dto, env, hlet.concat e, hid⟩
  refine ⟨fun c hc => ?_, fun jobId hjob => hasked _ (h.jobs jobId hjob),
    fun t ht => hasked _ (h.tasks t ht)⟩
  obtain ⟨r, hlet, hr⟩ := h.live c hc
  exact ⟨r, hlet.concat e, hr⟩

/-- What `dispatchJob` leaves in Redis. -/
theorem dispatchJob_redis (sanitize : String → String) (service : Chat.ChatService α)
    (redis : Chat.Redis) (dto : Chat.CreateChatDto) (env : Chat.DispatchEnv) :
    (∀ jobId ∈ (service.dispatchJob sanitize redis dto env).2.jobQueue,
      jobId ∈ redis.jobQueue ∨ jobId = env.jobId) ∧
    ∀ t ∈ (service.dispatchJob sanitize redis dto env).2.tasks,
      t ∈ redis.tasks ∨ t.2.jobId = env.jobId := by
  rw [Chat.dispatchJob_eq]
  split
  · exact ⟨fun _ h => Or.inl h, fun _ h => Or.inl h⟩
  · rename_i payload hpayload
    have hid := Chat.taskPayload_jobId hpayload
    simp only [Chat.Redis.pipeline]
    refine ⟨fun jobId hjob => ?_, fun t ht => ?_⟩
    · split_ifs at hjob
      · rcases List.mem_append.1 hjob with hjob | hjob
        · exact Or.inl hjob
        · exact Or.inr ((List.mem_singleton.1 hjob).trans hid)
      · exact Or.inl hjob
    · split_ifs at ht
      · rcases List.mem_cons.1 ht with rfl | ht
        · exact Or.inr hid
        · exact Or.inl ht
      · exact Or.inl ht

theorem Guarded.step {es : List (Event cfg)} {chat chat' : Chat.ChatServer α} {ce : Chat.Event}
    (hs : Guarded es chat) (hconnect : ∀ r, ce = .connect r → LetIn es (.stream r))
    (hdispatch : ∀ dto env, ce = .dispatchJob dto env → LetIn es (.getQuestion dto env))
    (h : Chat.step cfg.chat chat ce = some chat') : Guarded es chat' := by
  rcases Chat.step_cases cfg.chat h with ⟨r, rfl, -, rfl⟩ | ⟨r, rfl, -, rfl⟩ | ⟨c, rfl, -, rfl⟩ |
    ⟨dto, env, rfl, rfl⟩ | ⟨channel, message, rfl, rfl⟩
  · refine ⟨fun c hc => ?_, hs.jobs, hs.tasks⟩
    rcases List.mem_append.1 hc with hc | hc
    · exact hs.live c hc
    · rw [List.mem_singleton.1 hc]
      exact ⟨r, hconnect r rfl, rfl, rfl⟩
  · exact hs
  · exact ⟨fun d hd => hs.live d (List.mem_of_mem_erase hd), hs.jobs, hs.tasks⟩
  · obtain ⟨hjobs, htasks⟩ :=
      dispatchJob_redis cfg.chat.sanitize chat.service chat.redis dto env
    have hnew : Asked es env.jobId := ⟨dto, env, hdispatch dto env rfl, rfl⟩
    refine ⟨hs.live, fun jobId hjob => ?_, fun t ht => ?_⟩
    · rcases hjobs jobId hjob with hold | rfl
      · exact hs.jobs jobId hold
      · exact hnew
    · rcases htasks t ht with hold | hid
      · exact hs.tasks t hold
      · rw [hid]
        exact hnew
  · exact ⟨hs.live, hs.jobs, hs.tasks⟩

/-- The same of the requests that have passed the guard and not reached the chat. -/
structure Circuit (es : List (Event cfg)) (s : Server cfg) : Prop where
  passed : ∀ (p : ℕ) (req : HttpRequest cfg) (user : Option Auth.PartialUser),
    s.requests[p]? = some (req, .passed user) → req.route.usesAiCircuitGuard = true →
      LetIn es req.route
  chat : Guarded es s.chat

section Step

variable {es : List (Event cfg)} {s s' : Server cfg} {e : Event cfg}

theorem letIn_of_arrival {req : HttpRequest cfg} {user : Option Auth.PartialUser}
    (hrun : run step (boot cfg) es = some s) (hstage : arrival s req = .passed user)
    (hcircuit : req.route.usesAiCircuitGuard = true) :
    LetIn (es ++ [.arrive req]) req.route := by
  unfold arrival at hstage
  split at hstage
  · cases hstage
  · rename_i user' hguards
    have havail := (guards_ok hguards).2.2.2 hcircuit
    exact ⟨es, req, [], rfl, rfl, .of_run (monitor_run hrun) havail⟩

/-- The two handlers that ask something of the chat are behind the guard. -/
theorem letIn_of_call {req : HttpRequest cfg} {user : Option Auth.PartialUser} {ce : Chat.Event}
    (hlet : req.route.usesAiCircuitGuard = true → LetIn es req.route)
    (hcall : req.route.call user = .ok (.chat ce)) :
    (∀ r, ce = .connect r → LetIn es (.stream r)) ∧
      ∀ dto env, ce = .dispatchJob dto env → LetIn es (.getQuestion dto env) := by
  have hcalls := call_sound hcall
  generalize req.route = route at hcalls hlet
  cases hcalls with
  | stream r => exact ⟨fun r' heq => by cases heq; exact hlet rfl, fun _ _ heq => by cases heq⟩
  | getQuestion dto env =>
    exact ⟨fun _ heq => (by cases heq), fun _ _ heq => by cases heq; exact hlet rfl⟩

theorem Circuit.step (hs : Circuit es s) (hrun : run App.step (boot cfg) es = some s)
    (h : App.step s e = some s') : Circuit (es ++ [e]) s' := by
  refine ⟨fun p req user hp hcircuit => ?_, ?_⟩
  · rcases requests_step h hp with hold | ⟨rfl, hstage⟩ | ⟨user, -, -, hstage | ⟨e, hstage⟩⟩
    · exact (hs.passed p req user hold hcircuit).concat e
    · exact letIn_of_arrival hrun hstage.symm hcircuit
    · cases hstage
    · cases hstage
  · refine Guarded.concat ?_ e
    rcases chat_step h with hsame | ⟨ce, hstep, ⟨c, rfl⟩ | ⟨channel, message, rfl⟩ |
      ⟨p, req, user, -, hp, hcall⟩⟩
    · rw [hsame]
      exact hs.chat
    · exact hs.chat.step (fun _ heq => (by cases heq)) (fun _ _ heq => (by cases heq)) hstep
    · exact hs.chat.step (fun _ heq => (by cases heq)) (fun _ _ heq => (by cases heq)) hstep
    · obtain ⟨hconnect, hdispatch⟩ := letIn_of_call (hs.passed p req user hp) hcall
      exact hs.chat.step hconnect hdispatch hstep

end Step

def tabQuestionDto : Chat.CreateChatDto :=
  { Chat.Jobs.questionDto with
    sessionId := "tab-1"
    uuid := "visitor-1"
    sessionId_ne := Chat.reconnectRequest.sessionId_ne
    uuid_ne := Chat.reconnectRequest.targetUuid_ne }

/-- A worker beats, a client connects and asks; meanwhile the worker falls silent. -/
def askRun : List (Event exampleSettings) :=
  [.monitor (.beat "worker-1" 100), .monitor (.sync 101000), .monitor (.resume 0 true),
    .monitor (.resume 0 true),
    .arrive { route := .stream Chat.reconnectRequest },
    .enter 0, .arrive { route := .getQuestion tabQuestionDto ⟨"j0", "now", true, true⟩ },
    .monitor (.sync 110000), .monitor (.resume 1 true), .monitor (.resume 1 true), .enter 1]

end ProtostarNest.App
