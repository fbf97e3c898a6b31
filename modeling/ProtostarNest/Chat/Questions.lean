import ProtostarNest.Chat.Service

/-!
# Questions

A question that `POST message` accepts becomes a task under `chat:task:{jobId}` and an id on
`chat:job:queue`.

* `getQuestion`: the answer of the controller;
* `ChatService.taskPayload`: the part of `dispatchJob` before its pipeline; `dispatchJob_eq`;
* `carriesContext_iff`: for which questions the stored context is what the mode asks for.
-/

namespace ProtostarNest.Chat

variable {α : Type*}

/-! ### The answer of `POST message` -/

/-- The body that `getQuestion` answers with. -/
structure Queued where
  success : Bool
  status : String
  jobId : String
  sessionId : String
  uuid : String
  mode : Mode
  deriving DecidableEq

inductive HttpException
  | UnauthorizedException (message : String)
  | BadRequestException (message : String)
  deriving DecidableEq

/-- `getQuestion` after `dispatchJob` has settled; other messages do not occur. -/
def getQuestion (dto : CreateChatDto) (result : Except DispatchError String) :
    Except HttpException Queued :=
  match result with
  | .ok jobId => .ok ⟨true, "queued", jobId, dto.sessionId, dto.uuid, dto.mode⟩
  | .error .Unauthorized => .error (.UnauthorizedException "Unauthorized")
  | .error .BadRequest => .error (.BadRequestException "Bad Request")

/-- `chat:task:${jobId}`. -/
def taskKey (jobId : String) : String := "chat:task:" ++ jobId

theorem taskKey_inj {a b : String} (h : taskKey a = taskKey b) : a = b := by
  have hlist := congrArg String.toList h
  simp only [taskKey, String.toList_append] at hlist
  exact String.ext (List.append_cancel_left hlist)

/-- `dispatchJob` up to its pipeline. -/
def ChatService.taskPayload (sanitize : String → String) (s : ChatService α)
    (dto : CreateChatDto) (jobId timestamp : String) : Except DispatchError TaskPayload :=
  if s.hasActiveStream dto.uuid dto.sessionId = false then .error .Unauthorized
  else
    match cleanContext sanitize dto with
    | .error e => .error e
    | .ok context =>
        .ok ⟨jobId, dto.uuid, dto.sessionId, dto.mode, dto.content, context, timestamp⟩

section Payload

variable {sanitize : String → String} {s : ChatService α} {redis : Redis} {dto : CreateChatDto}
  {env : DispatchEnv} {jobId timestamp : String} {payload : TaskPayload}

/-- `dispatchJob` is its payload and the pipeline. -/
theorem dispatchJob_eq (sanitize : String → String) (s : ChatService α) (redis : Redis)
    (dto : CreateChatDto) (env : DispatchEnv) :
    s.dispatchJob sanitize redis dto env =
      match s.taskPayload sanitize dto env.jobId env.timestamp with
      | .error e => (.error e, redis)
      | .ok payload =>
          (.ok payload.jobId,
            redis.pipeline (taskKey payload.jobId) payload.jobId payload env.setOk
              env.rpushOk) := by
  unfold ChatService.dispatchJob ChatService.taskPayload
  split_ifs
  · rfl
  · cases cleanContext sanitize dto <;> rfl

theorem taskPayload_jobId
    (h : s.taskPayload sanitize dto jobId timestamp = .ok payload) : payload.jobId = jobId := by
  unfold ChatService.taskPayload at h
  split_ifs at h
  split at h <;> cases h
  rfl

/-- The mode and the context of a payload. -/
theorem taskPayload_context (h : s.taskPayload sanitize dto jobId timestamp = .ok payload) :
    payload.mode = dto.mode ∧ cleanContext sanitize dto = .ok payload.context := by
  unfold ChatService.taskPayload at h
  split_ifs at h
  split at h
  · cases h
  · rename_i context hcontext
    cases h
    exact ⟨rfl, hcontext⟩

end Payload

/-! ### The context of a job -/

/-- The text that is left of the context after sanitizing and trimming. -/
def CreateChatDto.remaining (sanitize : String → String) (dto : CreateChatDto) : String :=
  trim (sanitize (dto.context.getD ""))

/-- The context is a non-empty text in mode `page_context` and `null` in the others. -/
def TaskPayload.ContextFits (payload : TaskPayload) : Prop :=
  ((∃ c, payload.context = some c ∧ c ≠ "") ↔ payload.mode = .page_context) ∧
    (payload.mode ≠ .page_context → payload.context = none)

/-- What `dispatchJob` stores has the context that its mode asks for, and a request whose page
context is empty in the end is a bad one and stores nothing. -/
def CarriesContext (sanitize : String → String) (s : ChatService α) (redis : Redis)
    (dto : CreateChatDto) (env : DispatchEnv) : Prop :=
  (∀ key payload, (s.dispatchJob sanitize redis dto env).2.tasks = (key, payload) :: redis.tasks →
      payload.ContextFits) ∧
    (dto.mode = .page_context → dto.remaining sanitize = "" →
      getQuestion dto (s.dispatchJob sanitize redis dto env).1 =
          .error (.BadRequestException "Bad Request") ∧
        (s.dispatchJob sanitize redis dto env).2 = redis)

section Context

variable {sanitize : String → String} {s : ChatService α} {redis : Redis} {dto : CreateChatDto}
  {env : DispatchEnv} {key : String} {payload : TaskPayload}

/-- The validation leaves `dispatchJob` no bad request to find. -/
theorem cleanContext_eq (sanitize : String → String) (dto : CreateChatDto) :
    cleanContext sanitize dto =
      .ok (if dto.mode = .page_context then some (dto.remaining sanitize) else none) := by
  unfold cleanContext
  split_ifs with hmode
  · obtain ⟨c, hc, hne⟩ := dto.context_ne hmode
    simp [CreateChatDto.remaining, hc, hne]
  · rfl

theorem not_badRequest :
    getQuestion dto (s.dispatchJob sanitize redis dto env).1 ≠
      .error (.BadRequestException "Bad Request") := by
  rw [dispatchJob_eq, ChatService.taskPayload, cleanContext_eq]
  split_ifs <;> simp [getQuestion]

/-- The task that `dispatchJob` adds is the payload. -/
theorem taskPayload_of_stored
    (h : (s.dispatchJob sanitize redis dto env).2.tasks = (key, payload) :: redis.tasks) :
    s.taskPayload sanitize dto env.jobId env.timestamp = .ok payload := by
  rw [dispatchJob_eq] at h
  cases hp : s.taskPayload sanitize dto env.jobId env.timestamp with
  | error e =>
    rw [hp] at h
    have hlen := congrArg List.length h
    simp at hlen
  | ok p =>
    rw [hp] at h
    simp only [Redis.pipeline] at h
    split_ifs at h
    · rw [(Prod.mk.inj (List.cons.inj h).1).2]
    · have hlen := congrArg List.length h
      simp at hlen

/-- **A question is queued with the context that its mode asks for, or refused, iff its page
context, if it asks about one, has text left after sanitizing and trimming.** -/
theorem carriesContext_iff (sanitize : String → String) (s : ChatService α) (redis : Redis)
    (dto : CreateChatDto) (env : DispatchEnv) :
    CarriesContext sanitize s redis dto env ↔
      (dto.mode = .page_context → dto.remaining sanitize ≠ "") := by
  constructor
  · rintro ⟨-, hrefused⟩ hmode hempty
    exact not_badRequest (hrefused hmode hempty).1
  · intro hleft
    refine ⟨fun key payload hstored => ?_, fun hmode hempty => absurd hempty (hleft hmode)⟩
    obtain ⟨hmode, hcontext⟩ := taskPayload_context (taskPayload_of_stored hstored)
    rw [cleanContext_eq, Except.ok.injEq] at hcontext
    unfold TaskPayload.ContextFits
    rw [hmode, ← hcontext]
    by_cases hpage : dto.mode = .page_context
    · simpa [hpage] using hleft hpage
    · simp [hpage]

/-! A page of blanks, from a client that is connected. -/

/-- The text outside of `<` and `>`; `inside` says that a tag is open. -/
def discardTags : Bool → List Char → List Char
  | _, [] => []
  | true, c :: cs => discardTags (c ≠ '>') cs
  | false, c :: cs => if c = '<' then discardTags true cs else c :: discardTags false cs

/-- A text without markup and entities. -/
def IsPlain (text : String) : Prop := '<' ∉ text.toList ∧ '>' ∉ text.toList ∧ '&' ∉ text.toList

theorem discardTags_plain {cs : List Char} (h : '<' ∉ cs) : discardTags false cs = cs := by
  induction cs with
  | nil => rfl
  | cons c cs ih =>
    have hc : c ≠ '<' := fun heq => h (heq ▸ List.mem_cons_self)
    have hcs : '<' ∉ cs := fun hmem => h (List.mem_cons_of_mem c hmem)
    simp [discardTags, hc, ih hcs]

theorem notMem_discardTags (inside : Bool) (cs : List Char) : '<' ∉ discardTags inside cs := by
  induction cs generalizing inside with
  | nil => simp [discardTags]
  | cons c cs ih =>
    cases inside with
    | true => exact ih _
    | false =>
      by_cases hc : c = '<'
      · simpa [discardTags, hc] using ih true
      · simpa [discardTags, hc, Ne.symm hc] using ih false

/-- What `sanitize` does without allowed tags. -/
structure Sanitizes (sanitize : String → String) : Prop where
  plain : ∀ text, IsPlain text → sanitize text = text
  discards : ∀ text, '<' ∉ (sanitize text).toList

theorem sanitizes_discardTags :
    Sanitizes fun text => String.ofList (discardTags false text.toList) where
  plain := fun text htext => by rw [discardTags_plain htext.1, String.ofList_toList]
  discards := fun text => by rw [String.toList_ofList]; exact notMem_discardTags false _

def blankDto : CreateChatDto where
  sessionId := "s"
  uuid := "u"
  mode := .page_context
  content := "what is this page about?"
  context := some "<p> </p>"
  content_le := by decide
  context_ne := fun _ => ⟨_, rfl, by decide⟩

/-- The registry with the stream of that client. -/
def connected : ChatService String :=
  (stream ChatService.init { sessionId := "s", earlyUUID := some "u", uuidv4 := "v" }).2

theorem blank_not_carried :
    ¬ ∀ (sanitize : String → String), Sanitizes sanitize →
      ∀ (s : ChatService String) (redis : Redis) (dto : CreateChatDto) (env : DispatchEnv),
        s.hasActiveStream dto.uuid dto.sessionId = true →
          CarriesContext sanitize s redis dto env := by
  intro h
  have hcarries := h _ sanitizes_discardTags connected ⟨[], []⟩ blankDto ⟨"j", "t", true, true⟩
    (by decide)
  exact not_badRequest (hcarries.2 rfl (by decide)).1

end Context

end ProtostarNest.Chat
