import Mathlib.Data.List.AList
import ProtostarNest.Constants
import ProtostarNest.Lib.Separator
import ProtostarNest.Validation

/-!
# `ChatService` and the SSE endpoint of `ChatController`

The stream registry of the chat feature: `streamMap` sends the text `{uuid}-{sessionId}` to an
rxjs `Subject`, and the static counter `activeConnections` limits the open connections.

* `Subject`, `ChatService`: a `Subject` is referred to by its position in `subjects`, the list
  of all that were ever constructed;
* `hasActiveStream`, `addClient`, `removeClient`, `routeMessageToUser`, `dispatchJob` and the
  counter functions, each as `chat.service.ts` computes it;
* `stream`: the handler of `GET stream/:sessionId`, which answers 503 or opens a connection.

Payloads have an arbitrary type `α`, and `JSON.parse` is an arbitrary partial function into it.
-/

namespace ProtostarNest.Chat

/-! ### Subjects and the service state -/

/-- An rxjs `Subject` as its only possible subscriber, the SSE response, sees it. -/
structure Subject (α : Type*) where
  isStopped : Bool
  observed : Bool
  emitted : List α
  deriving DecidableEq

namespace Subject

variable {α : Type*}

/-- `new Subject()`. -/
def new : Subject α := ⟨false, false, []⟩

def subscribe (s : Subject α) : Subject α := { s with observed := true }

def unsubscribe (s : Subject α) : Subject α := { s with observed := false }

/-- `next` reaches a subscriber only before `complete`. -/
def next (v : α) (s : Subject α) : Subject α :=
  if s.isStopped || !s.observed then s else { s with emitted := s.emitted ++ [v] }

def complete (s : Subject α) : Subject α := { s with isStopped := true }

@[simp] theorem isStopped_new : (new : Subject α).isStopped = false := rfl
@[simp] theorem isStopped_subscribe (s : Subject α) : s.subscribe.isStopped = s.isStopped := rfl
@[simp] theorem isStopped_unsubscribe (s : Subject α) :
    s.unsubscribe.isStopped = s.isStopped := rfl
@[simp] theorem isStopped_complete (s : Subject α) : s.complete.isStopped = true := rfl
@[simp] theorem observed_complete (s : Subject α) : s.complete.observed = s.observed := rfl
@[simp] theorem observed_subscribe (s : Subject α) : s.subscribe.observed = true := rfl
@[simp] theorem emitted_complete (s : Subject α) : s.complete.emitted = s.emitted := rfl
@[simp] theorem emitted_unsubscribe (s : Subject α) : s.unsubscribe.emitted = s.emitted := rfl

@[simp] theorem isStopped_next (v : α) (s : Subject α) : (s.next v).isStopped = s.isStopped := by
  unfold next; split <;> rfl

@[simp] theorem observed_next (v : α) (s : Subject α) : (s.next v).observed = s.observed := by
  unfold next; split <;> rfl

theorem next_of_open {s : Subject α} (hs : s.isStopped = false) (ho : s.observed = true) (v : α) :
    (s.next v).emitted = s.emitted ++ [v] := by
  simp [next, hs, ho]

end Subject

/-- The fields of `ChatService`; `activeConnections` is static in the source. -/
structure ChatService (α : Type*) where
  streamMap : AList fun _ : String => ℕ
  activeConnections : ℕ
  subjects : List (Subject α)

/-- The template text `${uuid}-${sessionId}` under which a stream is registered. -/
def streamKey (uuid sessionId : String) : String := Separator.join '-' uuid sessionId

/-- The channel on which the worker publishes the answers for a pair, as the comment in
`routeMessageToUser` documents it. -/
def streamChannel (uuid sessionId : String) : String :=
  "chat:stream:" ++ streamKey uuid sessionId

namespace ChatService

variable {α : Type*}

/-- The service after its constructor. -/
def init : ChatService α := ⟨∅, 0, []⟩

def isOkayToConnect (s : ChatService α) : Bool := s.activeConnections < CHAT_MAX_CONNECTIONS

def incrementActiveConnections (s : ChatService α) : Bool × ChatService α :=
  if s.activeConnections ≥ CHAT_MAX_CONNECTIONS then (false, s)
  else (true, { s with activeConnections := s.activeConnections + 1 })

def decrementActiveConnections (s : ChatService α) : ChatService α :=
  if s.activeConnections ≤ 0 then { s with activeConnections := 0 }
  else { s with activeConnections := s.activeConnections - 1 }

def getActiveConnections (s : ChatService α) : ℕ := s.activeConnections

def getStreamMapSize (s : ChatService α) : ℕ := s.streamMap.keys.length

def hasActiveStream (s : ChatService α) (uuid sessionId : String) : Bool :=
  streamKey uuid sessionId ∈ s.streamMap

/-- The reference of the new `Subject`, or `none` when the counter is at its limit. -/
def addClient (s : ChatService α) (uuid sessionId : String) : Option ℕ × ChatService α :=
  match s.incrementActiveConnections with
  | (false, s) => (none, s)
  | (true, s) =>
      (some s.subjects.length,
        { s with
          subjects := s.subjects ++ [Subject.new]
          streamMap := s.streamMap.insert (streamKey uuid sessionId) s.subjects.length })

def removeClient (s : ChatService α) (uuid sessionId : String) : ChatService α :=
  if streamKey uuid sessionId ∈ s.streamMap then
    match s.streamMap.lookup (streamKey uuid sessionId) with
    | none => s
    | some subject =>
        { s with
          subjects := s.subjects.modify subject Subject.complete
          streamMap := s.streamMap.erase (streamKey uuid sessionId)
        }.decrementActiveConnections
  else s

/-- `channel.split(':').pop()`. -/
def channelKey (channel : String) : Option String := (Separator.split channel ':').getLast?

/-- The stream that a channel is routed to, if the extracted key is a registered one. -/
def routeTarget (s : ChatService α) (channel : String) : Option ℕ :=
  match channelKey channel with
  | none => none
  | some sessionId =>
      if sessionId = "" ∨ sessionId ∉ s.streamMap then none else s.streamMap.lookup sessionId

/-- A message that no stream is registered for, or that `JSON.parse` rejects, is dropped. -/
def routeMessageToUser (parse : String → Option α) (s : ChatService α)
    (channel messageString : String) : ChatService α :=
  match s.routeTarget channel with
  | none => s
  | some userStream =>
      match parse messageString with
      | none => s
      | some payload => { s with subjects := s.subjects.modify userStream (Subject.next payload) }

end ChatService

/-! ### The SSE endpoint -/

/-- A `GET stream/:sessionId?uuid=…` request with the value that `uuidv4()` would give it. The
route admits no empty parameter and a generated UUID is never empty. -/
structure StreamRequest where
  sessionId : String
  earlyUUID : Option String
  uuidv4 : String
  sessionId_ne : sessionId ≠ "" := by decide
  uuidv4_ne : uuidv4 ≠ "" := by decide

/-- `earlyUUID || uuidv4()`. -/
def StreamRequest.targetUuid (r : StreamRequest) : String :=
  match r.earlyUUID with
  | none => r.uuidv4
  | some uuid => if uuid = "" then r.uuidv4 else uuid

theorem StreamRequest.targetUuid_ne (r : StreamRequest) : r.targetUuid ≠ "" := by
  unfold targetUuid
  split
  · exact r.uuidv4_ne
  · split_ifs with h
    · exact r.uuidv4_ne
    · exact h

/-- The body of the 503 that `stream` throws. -/
structure Refusal where
  success : Bool
  message : String
  retryAfter : ℕ
  deriving DecidableEq

def fullCapacity : Refusal := ⟨false, "Server is currently at full capacity", SSE_RETRY_SECONDS⟩

/-- An accepted SSE connection: the pair that its `finalize` callback closes over, and its
`Subject`. -/
structure Connection where
  uuid : String
  sessionId : String
  subject : ℕ
  deriving DecidableEq

def Connection.key (c : Connection) : String := streamKey c.uuid c.sessionId

/-- The handler; the framework subscribes to the returned `Observable` at once. -/
def stream {α : Type*} (s : ChatService α) (r : StreamRequest) :
    Except Refusal Connection × ChatService α :=
  if s.isOkayToConnect = false then (.error fullCapacity, s)
  else
    match s.addClient r.targetUuid r.sessionId with
    | (none, s) => (.error fullCapacity, s)
    | (some subject, s) =>
        (.ok ⟨r.targetUuid, r.sessionId, subject⟩,
          { s with subjects := s.subjects.modify subject Subject.subscribe })

/-! ### Posting a question -/

inductive Mode
  | general
  | page_context
  | test
  deriving DecidableEq

/-- A `CreateChatDto` that the validation pipe lets through. -/
structure CreateChatDto where
  sessionId : String
  uuid : String
  mode : Mode
  content : String
  context : Option String
  sessionId_ne : sessionId ≠ "" := by decide
  uuid_ne : uuid ≠ "" := by decide
  content_ne : content ≠ "" := by decide
  content_le : content.length - presentationSequences content.toList ≤ 50000 := by decide
  context_ne : mode = .page_context → ∃ c, context = some c ∧ c ≠ "" := by decide

/-- The JSON that is stored under `chat:task:{jobId}`. -/
structure TaskPayload where
  jobId : String
  uuid : String
  sessionId : String
  mode : Mode
  content : String
  context : Option String
  timestamp : String
  deriving DecidableEq

/-- What the chat feature keeps in Redis: the tasks by key, newest first, and `chat:job:queue`. -/
structure Redis where
  tasks : List (String × TaskPayload)
  jobQueue : List String
  deriving DecidableEq

/-- What a call of `dispatchJob` meets outside: the generated job id, the time, and whether each
of the two pipelined commands succeeds. -/
structure DispatchEnv where
  jobId : String
  timestamp : String
  setOk : Bool := true
  rpushOk : Bool := true

/-- The characters that `String.prototype.trim` removes. -/
def isTrimmed (c : Char) : Bool :=
  c ∈ ['\t', '\n', '\x0B', '\x0C', '\r', ' ', '\u00A0', '\u1680', '\u2028', '\u2029', '\u202F',
    '\u205F', '\u3000', '\uFEFF'] || (0x2000 ≤ c.toNat && c.toNat ≤ 0x200A)

def trim (s : String) : String :=
  String.ofList ((s.toList.dropWhile isTrimmed).reverse.dropWhile isTrimmed).reverse

/-- The errors that `dispatchJob` throws, by their messages. -/
inductive DispatchError
  | Unauthorized
  | BadRequest
  deriving DecidableEq

/-- `pipeline.set` and `pipeline.rpush`; `exec` does not reject when one of them fails. -/
def Redis.pipeline (redis : Redis) (taskKey jobId : String) (payload : TaskPayload)
    (setOk rpushOk : Bool) : Redis where
  tasks := if setOk then (taskKey, payload) :: redis.tasks else redis.tasks
  jobQueue := if rpushOk then redis.jobQueue ++ [jobId] else redis.jobQueue

/-- The stored context: sanitized and trimmed in mode `page_context`, `null` otherwise. -/
def cleanContext (sanitize : String → String) (dto : CreateChatDto) :
    Except DispatchError (Option String) :=
  if dto.mode = .page_context then
    match dto.context with
    | none => .error .BadRequest
    | some context =>
        if context = "" then .error .BadRequest else .ok (some (trim (sanitize context)))
  else .ok none

def ChatService.dispatchJob {α : Type*} (sanitize : String → String) (s : ChatService α)
    (redis : Redis) (dto : CreateChatDto) (env : DispatchEnv) :
    Except DispatchError String × Redis :=
  if s.hasActiveStream dto.uuid dto.sessionId = false then (.error .Unauthorized, redis)
  else
    match cleanContext sanitize dto with
    | .error e => (.error e, redis)
    | .ok context =>
        let payload : TaskPayload :=
          { jobId := env.jobId
            uuid := dto.uuid
            sessionId := dto.sessionId
            mode := dto.mode
            content := dto.content
            context := context
            timestamp := env.timestamp }
        (.ok env.jobId,
          redis.pipeline ("chat:task:" ++ env.jobId) env.jobId payload env.setOk env.rpushOk)

end ProtostarNest.Chat
