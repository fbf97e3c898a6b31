import ProtostarNest.Auth.Accounts
import ProtostarNest.Auth.Roles
import ProtostarNest.Chat.Server
import ProtostarNest.Knowledge.Overload
import ProtostarNest.Monitoring.AiStatus

/-!
# The whole server

The features behind one HTTP server, as `main.ts` and the modules compose them.

* `Route`: the handlers of the controllers, with the arguments that the pipes let through;
* `HttpRequest`, `guards`: a request and the guards in the order in which they run;
* `Route.call`: what a handler asks of its service, or refuses;
* `Server`, `step`: the features side by side, and the requests between the guards and their
  handlers;
* `auth_step`, `knowledge_step`, `chat_step`: what a label does to a feature.

A request that the guards let through reaches its handler later; anything else may happen in
between.
-/

namespace ProtostarNest.App

open Transition

/-- Multer's option `limits.fileSize`: the sizes that a limit lets through, none of which is above
the limit. -/
structure Multer where
  fits : ℕ → ℕ → Bool
  le_of_fits : ∀ {fileSize size : ℕ}, fits fileSize size = true → size ≤ fileSize

/-- The libraries and the settings of the features. -/
structure Settings (α : Type*) where
  auth : Auth.Config
  knowledge : Knowledge.Config
  multer : Multer
  chat : Chat.External α
  INTERNAL_WEBHOOK_SECRET : Option String

variable {α : Type*}

/-- `process.env.INTERNAL_WEBHOOK_SECRET || 'protostar-secret-key'`. -/
def Settings.webhookSecret (cfg : Settings α) : String :=
  match cfg.INTERNAL_WEBHOOK_SECRET with
  | some secret => if secret = "" then "protostar-secret-key" else secret
  | none => "protostar-secret-key"

/-! ### Routes -/

/-- The handlers. A webhook may answer a job. -/
inductive Route (cfg : Settings α)
  | getHello
  | getHealth
  | checkRedis
  | stream (r : Chat.StreamRequest)
  | getQuestion (createChatDto : Chat.CreateChatDto) (env : Chat.DispatchEnv)
  | getDebugInfo
  | signup (dto : Auth.SignupDto cfg.auth)
  | signin (dto : Auth.SigninDto cfg.auth)
  | uploadDocs (files : List Knowledge.MulterFile)
  | getKnowledgeDocs
  | replaceDocs (id : String) (title : Option String) (file : Knowledge.MulterFile)
  | deleteDoc (id : String)
  | handleWebhook (dto : Knowledge.RagWebhookDto) (secret : Option String)
      (answers : Option Knowledge.Job)

namespace Route

variable {cfg : Settings α}

/-- `@Public()`. -/
def isPublic : Route cfg → Bool
  | .getHello => true
  | .stream _ => true
  | .getQuestion _ _ => true
  | .signup _ => true
  | .signin _ => true
  | .handleWebhook _ _ _ => true
  | _ => false

/-- `@SkipThrottle()`. -/
def skipsThrottle : Route cfg → Bool
  | .getHealth => true
  | .checkRedis => true
  | .stream _ => true
  | _ => false

/-- `@UseGuards(AiCircuitGuard)`. -/
def usesAiCircuitGuard : Route cfg → Bool
  | .stream _ => true
  | .getQuestion _ _ => true
  | _ => false

end Route

/-! ### Guards -/

/-- A request: its bearer token, its origin, the time of its arrival, and whether it exceeds a limit
of the throttler. -/
structure HttpRequest (cfg : Settings α) where
  route : Route cfg
  token : Option String := none
  origin : Option String := none
  now : ℕ := 0
  throttled : Bool := false

/-- `staticWhitelist` of `OriginGuard`. -/
def staticWhitelist : List String :=
  ["https://paul2021-r.github.io", "https://service-protostar.ddns.net", "http://localhost:4000",
    "http://127.0.0.1:4000", "http://172.18.0.1:4000", "http://172.18.0.1:5858",
    "http://localhost:5858", "http://127.0.0.1:5858"]

section Guards

variable {cfg : Settings α} (req : HttpRequest cfg)

/-- `ThrottlerGuard`. -/
def throttlerGuard : Except Thrown Unit :=
  if req.throttled = true ∧ req.route.skipsThrottle = false then
    .error (.HttpException 429 "System is busy. Please try again later.")
  else .ok ()

/-- `JwtAuthGuard` with `JwtStrategy`: `request.user`, which public routes do not have. -/
def jwtAuthGuard : Except Thrown (Option Auth.PartialUser) :=
  if req.route.isPublic then .ok none
  else
    match req.token.bind fun token => cfg.auth.verify token req.now with
    | none => .error (.HttpException 401 "Unauthorized")
    | some payload => .ok (some (Auth.validate payload))

/-- `OriginGuard`. -/
def originGuard : Except Thrown Unit :=
  match req.origin with
  | none => .ok ()
  | some origin =>
      if origin = "" ∨ origin ∈ staticWhitelist then .ok ()
      else .error (.HttpException 403 "Not allowed origin")

/-- The guards of the application, then those of the route. -/
def guards (monitor : Monitoring.Monitor) : Except Thrown (Option Auth.PartialUser) := do
  throttlerGuard req
  let user ← jwtAuthGuard req
  originGuard req
  if req.route.usesAiCircuitGuard then
    let _ ← Monitoring.canActivate monitor
  return user

end Guards

/-! ### Handlers -/

/-- The limit of `MulterModule`, 50 MB. -/
def FILE_SIZE_LIMIT : ℕ := 50 * 1024 * 1024

/-- `/\.(md)$/` matches the name. -/
def isMarkdown (originalname : String) : Bool := ".md".toList <:+ originalname.toList

/-- `fileFilter`, which passes a plain `Error` to Multer, and Multer's check of the size. -/
def Settings.checkFile (cfg : Settings α) (file : Knowledge.MulterFile) : Except Thrown Unit :=
  if isMarkdown file.originalname = false then .error .other
  else if cfg.multer.fits FILE_SIZE_LIMIT file.size = false then
    .error (.HttpException 413 "File too large")
  else .ok ()

/-- The first file that is refused. -/
def Settings.checkFiles (cfg : Settings α) : List Knowledge.MulterFile → Except Thrown Unit
  | [] => .ok ()
  | file :: files =>
      match cfg.checkFile file with
      | .error e => .error e
      | .ok () => cfg.checkFiles files

/-- What a handler asks of a service. -/
inductive Call (cfg : Settings α)
  | page
  | auth (e : Auth.Event cfg.auth)
  | knowledge (r : Knowledge.Request)
  | chat (e : Chat.Event)

/-- The user of the knowledge routes, whose id is all they read of it. -/
def knowledgeUser (user : Auth.PartialUser) : Knowledge.User := ⟨user.id⟩

/-- A call for `request.user`; without one the handler throws a `TypeError`. -/
def forUser {cfg : Settings α} (user : Option Auth.PartialUser)
    (r : Knowledge.User → Knowledge.Request) : Except Thrown (Call cfg) :=
  match user with
  | some user => .ok (.knowledge (r (knowledgeUser user)))
  | none => .error .other

/-- The interceptors of Multer and the handlers of the controllers up to their service. -/
def Route.call {cfg : Settings α} (user : Option Auth.PartialUser) :
    Route cfg → Except Thrown (Call cfg)
  | .getHello => .ok .page
  | .getHealth => .ok .page
  | .checkRedis => .ok .page
  | .stream r => .ok (.chat (.connect r))
  | .getQuestion dto env => .ok (.chat (.dispatchJob dto env))
  | .getDebugInfo => .ok .page
  | .signup dto => .ok (.auth (.signup dto))
  | .signin dto => .ok (.auth (.signin dto))
  | .uploadDocs files =>
      match cfg.checkFiles files with
      | .error e => .error e
      | .ok () => forUser user fun user => .uploadFiles user files
  | .getKnowledgeDocs => forUser user fun user => .findAll user
  | .replaceDocs id title file =>
      match cfg.checkFile file with
      | .error e => .error e
      | .ok () => forUser user fun user => .replaceFile user id title file
  | .deleteDoc id => forUser user fun user => .deleteFile user id
  | .handleWebhook dto secret answers =>
      if secret ≠ some cfg.webhookSecret then
        .error (.HttpException 401 "Invalid Secret Key")
      else .ok (.knowledge (.updateDocStatusViaWebhook dto answers))

section Calls

variable {cfg : Settings α}

/-- What a handler can ask for. -/
inductive Calls (user : Option Auth.PartialUser) : Route cfg → Call cfg → Prop
  | page (route : Route cfg) : Calls user route .page
  | stream (r : Chat.StreamRequest) : Calls user (.stream r) (.chat (.connect r))
  | getQuestion (dto : Chat.CreateChatDto) (env : Chat.DispatchEnv) :
      Calls user (.getQuestion dto env) (.chat (.dispatchJob dto env))
  | signup (dto : Auth.SignupDto cfg.auth) : Calls user (.signup dto) (.auth (.signup dto))
  | signin (dto : Auth.SigninDto cfg.auth) : Calls user (.signin dto) (.auth (.signin dto))
  | uploadDocs (files : List Knowledge.MulterFile) (u : Auth.PartialUser) (huser : user = some u)
      (hfiles : cfg.checkFiles files = .ok ()) :
      Calls user (.uploadDocs files) (.knowledge (.uploadFiles (knowledgeUser u) files))
  | getKnowledgeDocs (u : Auth.PartialUser) (huser : user = some u) :
      Calls user .getKnowledgeDocs (.knowledge (.findAll (knowledgeUser u)))
  | replaceDocs (id : String) (title : Option String) (file : Knowledge.MulterFile)
      (u : Auth.PartialUser) (huser : user = some u) (hfile : cfg.checkFile file = .ok ()) :
      Calls user (.replaceDocs id title file)
        (.knowledge (.replaceFile (knowledgeUser u) id title file))
  | deleteDoc (id : String) (u : Auth.PartialUser) (huser : user = some u) :
      Calls user (.deleteDoc id) (.knowledge (.deleteFile (knowledgeUser u) id))
  | handleWebhook (dto : Knowledge.RagWebhookDto) (secret : Option String)
      (answers : Option Knowledge.Job) (hsecret : secret = some cfg.webhookSecret) :
      Calls user (.handleWebhook dto secret answers)
        (.knowledge (.updateDocStatusViaWebhook dto answers))

theorem forUser_ok {user : Option Auth.PartialUser} {r : Knowledge.User → Knowledge.Request}
    {call : Call cfg} (h : forUser user r = .ok call) :
    ∃ u, user = some u ∧ call = .knowledge (r (knowledgeUser u)) := by
  cases user with
  | none => cases h
  | some u => exact ⟨u, rfl, (Except.ok.inj h).symm⟩

theorem call_sound {user : Option Auth.PartialUser} {route : Route cfg} {call : Call cfg}
    (h : route.call user = .ok call) : Calls user route call := by
  cases route with
  | getHello => cases h; exact .page _
  | getHealth => cases h; exact .page _
  | checkRedis => cases h; exact .page _
  | getDebugInfo => cases h; exact .page _
  | stream r => cases h; exact .stream r
  | getQuestion dto env => cases h; exact .getQuestion dto env
  | signup dto => cases h; exact .signup dto
  | signin dto => cases h; exact .signin dto
  | uploadDocs files =>
    simp only [Route.call] at h
    split at h
    · cases h
    · rename_i hfiles
      obtain ⟨u, huser, rfl⟩ := forUser_ok h
      exact .uploadDocs files u huser hfiles
  | getKnowledgeDocs =>
    simp only [Route.call] at h
    obtain ⟨u, huser, rfl⟩ := forUser_ok h
    exact .getKnowledgeDocs u huser
  | replaceDocs id title file =>
    simp only [Route.call] at h
    split at h
    · cases h
    · rename_i hfile
      obtain ⟨u, huser, rfl⟩ := forUser_ok h
      exact .replaceDocs id title file u huser hfile
  | deleteDoc id =>
    simp only [Route.call] at h
    obtain ⟨u, huser, rfl⟩ := forUser_ok h
    exact .deleteDoc id u huser
  | handleWebhook dto secret answers =>
    simp only [Route.call] at h
    split_ifs at h with hsecret
    obtain rfl := Except.ok.inj h
    exact .handleWebhook dto secret answers (not_not.1 hsecret)

end Calls

/-! ### The server -/

/-- A request refused by a guard, an interceptor or its handler; past the guards; at its service. -/
inductive Stage
  | refused (e : ErrorResponse)
  | passed (user : Option Auth.PartialUser)
  | entered (user : Option Auth.PartialUser)
  deriving DecidableEq

structure Server (cfg : Settings α) where
  auth : Auth.Sys cfg.auth
  knowledge : Knowledge.Http
  chat : Chat.ChatServer α
  monitor : Monitoring.Monitor
  requests : List (HttpRequest cfg × Stage)

/-- A request arrives, or the handler of one is called; a step of a feature; the cron job of the
dispatcher. -/
inductive Event (cfg : Settings α)
  | arrive (req : HttpRequest cfg)
  | enter (p : ℕ)
  | auth (i : ℕ) (env : Auth.Env)
  | knowledge (i : ℕ) (env : Knowledge.Env)
  | handle (c : ℕ)
  | disconnect (c : Chat.Connection)
  | pmessage (channel message : String)
  | monitor (e : Monitoring.Event)
  | dispatchPendingTasks

variable {cfg : Settings α}

def boot (cfg : Settings α) : Server cfg :=
  ⟨.init cfg.auth, .boot .empty, .init, .boot, []⟩

/-- What `JwtAuthGuard` does for the request, when it is reached. -/
def authenticate (s : Auth.Sys cfg.auth) (req : HttpRequest cfg) : Auth.Sys cfg.auth :=
  match throttlerGuard req, req.token with
  | .ok (), some token =>
      if req.route.isPublic then s
      else (Auth.step s (.authenticate token req.now)).getD s
  | _, _ => s

/-- The handler of a route with the interceptor for overload, or another one. -/
def knowledgeEvent (r : Knowledge.Request) : Knowledge.HttpEvent :=
  if r.guarded then .intercept r else .request r

def perform (s : Server cfg) : Call cfg → Option (Server cfg)
  | .page => some s
  | .auth e => (Auth.step s.auth e).map fun auth => { s with auth := auth }
  | .knowledge r =>
      (Knowledge.Http.step cfg.knowledge s.knowledge (knowledgeEvent r)).map fun knowledge =>
        { s with knowledge := knowledge }
  | .chat e => (Chat.step cfg.chat s.chat e).map fun chat => { s with chat := chat }

def step (s : Server cfg) : Event cfg → Option (Server cfg)
  | .arrive req =>
      let stage :=
        match guards req s.monitor with
        | .error e => .refused (GlobalExceptionFilter.catch e)
        | .ok user => .passed user
      some { s with auth := authenticate s.auth req, requests := s.requests ++ [(req, stage)] }
  | .enter p =>
      match s.requests[p]? with
      | some (req, .passed user) =>
          match req.route.call user with
          | .error e =>
              some { s with
                requests := s.requests.set p (req, .refused (GlobalExceptionFilter.catch e)) }
          | .ok call =>
              perform { s with requests := s.requests.set p (req, .entered user) } call
      | _ => none
  | .auth i env =>
      (Auth.step s.auth (.resume i env)).map fun auth => { s with auth := auth }
  | .knowledge i env =>
      (Knowledge.Http.step cfg.knowledge s.knowledge (.resume i env)).map fun knowledge =>
        { s with knowledge := knowledge }
  | .handle c =>
      (Knowledge.Http.step cfg.knowledge s.knowledge (.handle c)).map fun knowledge =>
        { s with knowledge := knowledge }
  | .disconnect c =>
      (Chat.step cfg.chat s.chat (.disconnect c)).map fun chat => { s with chat := chat }
  | .pmessage channel message =>
      (Chat.step cfg.chat s.chat (.pmessage channel message)).map fun chat => { s with chat := chat }
  | .monitor e => (Monitoring.step s.monitor e).map fun monitor => { s with monitor := monitor }
  | .dispatchPendingTasks =>
      (Knowledge.Http.step cfg.knowledge s.knowledge (.request .dispatchPendingTasks)).map
        fun knowledge => { s with knowledge := knowledge }

/-! ### Inversion -/

/-- Where a request goes when it arrives. -/
def arrival (s : Server cfg) (req : HttpRequest cfg) : Stage :=
  match guards req s.monitor with
  | .error e => .refused (GlobalExceptionFilter.catch e)
  | .ok user => .passed user

/-- What a label can do. -/
inductive Steps (s : Server cfg) : Event cfg → Server cfg → Prop
  | arrived (req : HttpRequest cfg) :
      Steps s (.arrive req)
        { s with auth := authenticate s.auth req, requests := s.requests ++ [(req, arrival s req)] }
  | refused (p : ℕ) (req : HttpRequest cfg) (user : Option Auth.PartialUser) (e : Thrown)
      (hp : s.requests[p]? = some (req, .passed user)) (hcall : req.route.call user = .error e) :
      Steps s (.enter p)
        { s with requests := s.requests.set p (req, .refused (GlobalExceptionFilter.catch e)) }
  | paged (p : ℕ) (req : HttpRequest cfg) (user : Option Auth.PartialUser)
      (hp : s.requests[p]? = some (req, .passed user)) (hcall : req.route.call user = .ok .page) :
      Steps s (.enter p) { s with requests := s.requests.set p (req, .entered user) }
  | authCalled (p : ℕ) (req : HttpRequest cfg) (user : Option Auth.PartialUser)
      (ae : Auth.Event cfg.auth) (auth : Auth.Sys cfg.auth)
      (hp : s.requests[p]? = some (req, .passed user))
      (hcall : req.route.call user = .ok (.auth ae)) (h : Auth.step s.auth ae = some auth) :
      Steps s (.enter p)
        { s with auth := auth, requests := s.requests.set p (req, .entered user) }
  | knowledgeCalled (p : ℕ) (req : HttpRequest cfg) (user : Option Auth.PartialUser)
      (r : Knowledge.Request) (knowledge : Knowledge.Http)
      (hp : s.requests[p]? = some (req, .passed user))
      (hcall : req.route.call user = .ok (.knowledge r))
      (h : Knowledge.Http.step cfg.knowledge s.knowledge (knowledgeEvent r) = some knowledge) :
      Steps s (.enter p)
        { s with knowledge := knowledge, requests := s.requests.set p (req, .entered user) }
  | chatCalled (p : ℕ) (req : HttpRequest cfg) (user : Option Auth.PartialUser) (ce : Chat.Event)
      (chat : Chat.ChatServer α) (hp : s.requests[p]? = some (req, .passed user))
      (hcall : req.route.call user = .ok (.chat ce))
      (h : Chat.step cfg.chat s.chat ce = some chat) :
      Steps s (.enter p)
        { s with chat := chat, requests := s.requests.set p (req, .entered user) }
  | auth (i : ℕ) (env : Auth.Env) (auth : Auth.Sys cfg.auth)
      (h : Auth.step s.auth (.resume i env) = some auth) :
      Steps s (.auth i env) { s with auth := auth }
  | knowledge (i : ℕ) (env : Knowledge.Env) (knowledge : Knowledge.Http)
      (h : Knowledge.Http.step cfg.knowledge s.knowledge (.resume i env) = some knowledge) :
      Steps s (.knowledge i env) { s with knowledge := knowledge }
  | handled (c : ℕ) (knowledge : Knowledge.Http)
      (h : Knowledge.Http.step cfg.knowledge s.knowledge (.handle c) = some knowledge) :
      Steps s (.handle c) { s with knowledge := knowledge }
  | disconnected (c : Chat.Connection) (chat : Chat.ChatServer α)
      (h : Chat.step cfg.chat s.chat (.disconnect c) = some chat) :
      Steps s (.disconnect c) { s with chat := chat }
  | published (channel message : String) (chat : Chat.ChatServer α)
      (h : Chat.step cfg.chat s.chat (.pmessage channel message) = some chat) :
      Steps s (.pmessage channel message) { s with chat := chat }
  | monitored (e : Monitoring.Event) (monitor : Monitoring.Monitor)
      (h : Monitoring.step s.monitor e = some monitor) :
      Steps s (.monitor e) { s with monitor := monitor }
  | dispatched (knowledge : Knowledge.Http)
      (h : Knowledge.Http.step cfg.knowledge s.knowledge (.request .dispatchPendingTasks) =
        some knowledge) : Steps s .dispatchPendingTasks { s with knowledge := knowledge }

section Inversion

variable {s s' : Server cfg} {e : Event cfg}

theorem step_sound (h : step s e = some s') : Steps s e s' := by
  cases e with
  | arrive req =>
    obtain rfl := Option.some.inj h
    exact .arrived req
  | enter p =>
    simp only [step] at h
    split at h
    · rename_i req user hp
      split at h
      · rename_i e hcall
        obtain rfl := Option.some.inj h
        exact .refused p req user e hp hcall
      · rename_i call hcall
        cases call with
        | page =>
          obtain rfl := Option.some.inj h
          exact .paged p req user hp hcall
        | auth ae =>
          obtain ⟨auth, hauth, rfl⟩ := Option.map_eq_some_iff.1 h
          exact .authCalled p req user ae auth hp hcall hauth
        | knowledge r =>
          obtain ⟨knowledge, hknowledge, rfl⟩ := Option.map_eq_some_iff.1 h
          exact .knowledgeCalled p req user r knowledge hp hcall hknowledge
        | chat ce =>
          obtain ⟨chat, hchat, rfl⟩ := Option.map_eq_some_iff.1 h
          exact .chatCalled p req user ce chat hp hcall hchat
    · cases h
  | auth i env =>
    obtain ⟨auth, hauth, rfl⟩ := Option.map_eq_some_iff.1 h
    exact .auth i env auth hauth
  | knowledge i env =>
    obtain ⟨knowledge, hknowledge, rfl⟩ := Option.map_eq_some_iff.1 h
    exact .knowledge i env knowledge hknowledge
  | handle c =>
    obtain ⟨knowledge, hknowledge, rfl⟩ := Option.map_eq_some_iff.1 h
    exact .handled c knowledge hknowledge
  | disconnect c =>
    obtain ⟨chat, hchat, rfl⟩ := Option.map_eq_some_iff.1 h
    exact .disconnected c chat hchat
  | pmessage channel message =>
    simp only [step, Option.map_eq_some_iff] at h
    obtain ⟨chat, hchat, rfl⟩ := h
    exact .published channel message chat hchat
  | monitor e =>
    obtain ⟨monitor, hmonitor, rfl⟩ := Option.map_eq_some_iff.1 h
    exact .monitored e monitor hmonitor
  | dispatchPendingTasks =>
    simp only [step, Option.map_eq_some_iff] at h
    obtain ⟨knowledge, hknowledge, rfl⟩ := h
    exact .dispatched knowledge hknowledge

/-- Why a step of the knowledge feature is made. -/
inductive Cause (s : Server cfg) : Event cfg → Knowledge.HttpEvent → Prop
  | sent (p : ℕ) (req : HttpRequest cfg) (user : Option Auth.PartialUser) (r : Knowledge.Request)
      (hp : s.requests[p]? = some (req, .passed user))
      (hcall : req.route.call user = .ok (.knowledge r)) : Cause s (.enter p) (knowledgeEvent r)
  | resume (i : ℕ) (env : Knowledge.Env) : Cause s (.knowledge i env) (.resume i env)
  | handle (c : ℕ) : Cause s (.handle c) (.handle c)
  | cron : Cause s .dispatchPendingTasks (.request .dispatchPendingTasks)

/-- The knowledge feature makes a step of its own, or none. -/
theorem knowledge_step (h : step s e = some s') :
    s'.knowledge = s.knowledge ∨
      ∃ ke, Cause s e ke ∧
        Knowledge.Http.step cfg.knowledge s.knowledge ke = some s'.knowledge := by
  cases step_sound h with
  | knowledgeCalled p req user r knowledge hp hcall hk =>
    exact Or.inr ⟨_, .sent p req user r hp hcall, hk⟩
  | knowledge i env knowledge hk => exact Or.inr ⟨_, .resume i env, hk⟩
  | handled c knowledge hk => exact Or.inr ⟨_, .handle c, hk⟩
  | dispatched knowledge hk => exact Or.inr ⟨_, .cron, hk⟩
  | _ => exact Or.inl rfl

theorem knowledge_reachable {es : List (Event cfg)} (h : run step (boot cfg) es = some s) :
    Reachable (Knowledge.Http.step cfg.knowledge) (.boot .empty) s.knowledge := by
  have hkeep : ∀ (s : Server cfg) (e : Event cfg) (t : Server cfg),
      Reachable (Knowledge.Http.step cfg.knowledge) (.boot .empty) s.knowledge →
        step s e = some t →
          Reachable (Knowledge.Http.step cfg.knowledge) (.boot .empty) t.knowledge := by
    intro s e t hs hstep
    rcases knowledge_step hstep with hsame | ⟨ke, -, hstep⟩
    · rw [hsame]
      exact hs
    · exact hs.tail hstep
  exact invariant hkeep (.refl _) ⟨es, h⟩

/-- Tokens are checked when requests arrive. -/
theorem authenticate_cases (s : Auth.Sys cfg.auth) (req : HttpRequest cfg) :
    authenticate s req = s ∨ ∃ token, req.token = some token ∧ req.route.isPublic = false ∧
      Auth.step s (.authenticate token req.now) = some (authenticate s req) := by
  unfold authenticate
  split
  · rename_i token _ htoken
    split_ifs with hpublic
    · exact Or.inl rfl
    · refine Or.inr ⟨token, htoken, Bool.eq_false_of_not_eq_true hpublic, ?_⟩
      simp only [Auth.step]
      split <;> rfl
  · exact Or.inl rfl

/-- So does the authentication. -/
theorem auth_step (h : step s e = some s') :
    s'.auth = s.auth ∨ ∃ ae, Auth.step s.auth ae = some s'.auth ∧
      ∀ token now, ae = .authenticate token now →
        ∃ req, e = .arrive req ∧ req.token = some token ∧ req.now = now ∧
          req.route.isPublic = false := by
  cases step_sound h with
  | arrived req =>
    rcases authenticate_cases s.auth req with hsame | ⟨token, htoken, hpublic, hauth⟩
    · exact Or.inl hsame
    · exact Or.inr ⟨_, hauth, fun _ _ heq => by cases heq; exact ⟨req, rfl, htoken, rfl, hpublic⟩⟩
  | authCalled p req user ae auth hp hcall ha =>
    refine Or.inr ⟨ae, ha, ?_⟩
    rintro token now rfl
    have hcalls := call_sound hcall
    generalize req.route = route at hcalls
    cases hcalls
  | auth i env auth ha => exact Or.inr ⟨_, ha, fun _ _ heq => by cases heq⟩
  | _ => exact Or.inl rfl

/-- And the chat. -/
theorem chat_step (h : step s e = some s') :
    s'.chat = s.chat ∨ ∃ ce, Chat.step cfg.chat s.chat ce = some s'.chat ∧
      ((∃ c, ce = .disconnect c) ∨ (∃ channel message, ce = .pmessage channel message) ∨
        ∃ p req user, e = .enter p ∧ s.requests[p]? = some (req, .passed user) ∧
          req.route.call user = .ok (.chat ce)) := by
  cases step_sound h with
  | chatCalled p req user ce chat hp hcall hc =>
    exact Or.inr ⟨ce, hc, Or.inr (Or.inr ⟨p, req, user, rfl, hp, hcall⟩)⟩
  | disconnected c chat hc => exact Or.inr ⟨_, hc, Or.inl ⟨c, rfl⟩⟩
  | published channel message chat hc => exact Or.inr ⟨_, hc, Or.inr (Or.inl ⟨channel, message, rfl⟩)⟩
  | _ => exact Or.inl rfl

/-- A request that is known has arrived now, has just been called, or was where it is. -/
theorem requests_step (h : step s e = some s') {p : ℕ} {req : HttpRequest cfg} {stage : Stage}
    (hp : s'.requests[p]? = some (req, stage)) :
    s.requests[p]? = some (req, stage) ∨ (e = .arrive req ∧ stage = arrival s req) ∨
      ∃ user, e = .enter p ∧ s.requests[p]? = some (req, .passed user) ∧
        (stage = .entered user ∨ ∃ e, stage = .refused e) := by
  have hset : ∀ {q : ℕ} {req' : HttpRequest cfg} {user : Option Auth.PartialUser} {stage' : Stage},
      s.requests[q]? = some (req', .passed user) →
      (stage' = .entered user ∨ ∃ e, stage' = .refused e) → e = .enter q →
      (s.requests.set q (req', stage'))[p]? = some (req, stage) →
      s.requests[p]? = some (req, stage) ∨ ∃ user, e = .enter p ∧
        s.requests[p]? = some (req, .passed user) ∧
        (stage = .entered user ∨ ∃ e, stage = .refused e) := by
    intro q req' user stage' hq hstage he hget
    by_cases hqp : q = p
    · subst hqp
      rw [List.getElem?_set_self (List.getElem?_eq_some_iff.1 hq).1] at hget
      cases hget
      exact Or.inr ⟨user, he, hq, hstage⟩
    · rw [List.getElem?_set_ne hqp] at hget
      exact Or.inl hget
  cases step_sound h with
  | arrived req' =>
    by_cases hlt : p < s.requests.length
    · rw [List.getElem?_append_left hlt] at hp
      exact Or.inl hp
    · rw [List.getElem?_append_right (Nat.not_lt.1 hlt)] at hp
      obtain ⟨rfl, rfl⟩ := Prod.mk.inj (List.mem_singleton.1 (List.mem_of_getElem? hp))
      exact Or.inr (Or.inl ⟨rfl, rfl⟩)
  | refused q req' user e hq hcall =>
    exact (hset hq (Or.inr ⟨_, rfl⟩) rfl hp).imp_right Or.inr
  | paged q req' user hq hcall => exact (hset hq (Or.inl rfl) rfl hp).imp_right Or.inr
  | authCalled q req' user ae auth hq hcall ha =>
    exact (hset hq (Or.inl rfl) rfl hp).imp_right Or.inr
  | knowledgeCalled q req' user r knowledge hq hcall hk =>
    exact (hset hq (Or.inl rfl) rfl hp).imp_right Or.inr
  | chatCalled q req' user ce chat hq hcall hc =>
    exact (hset hq (Or.inl rfl) rfl hp).imp_right Or.inr
  | _ => exact Or.inl hp

end Inversion

/-! ### A first run -/

/-- A file that reaches the limit is too large. -/
def exampleMulter : Multer where
  fits := fun fileSize size => size < fileSize
  le_of_fits := fun h => Nat.le_of_lt (of_decide_eq_true h)

def exampleSettings : Settings String where
  auth := Auth.exampleConfig (some "s3cret")
  knowledge := Knowledge.exampleConfig
  multer := exampleMulter
  chat := ⟨some, id⟩
  INTERNAL_WEBHOOK_SECRET := none

def notes : Knowledge.MulterFile := ⟨"notes.md", "text/markdown", [1, 2], 2⟩

theorem root_isEmail : exampleSettings.auth.isEmail "root@example.com" = true := by decide

/-- A signup and a signin. -/
def signinRun : List (Event exampleSettings) :=
  [.arrive { route := .signup ⟨"root@example.com", "password", some (some .ADMIN),
      some (some "s3cret"), root_isEmail, Auth.password_valid⟩ },
    .enter 0, .auth 0 {}, .auth 0 { hash := "hash of password" }, .auth 0 { id := "u0" },
    .arrive { route := .signin ⟨"root@example.com", "password", root_isEmail,
      Auth.password_valid⟩ },
    .enter 1, .auth 1 {}, .auth 1 { now := 1 }]

/-- After them a request with the token uploads a file. -/
def uploadRun : List (Event exampleSettings) :=
  signinRun ++
    [.arrive
      { route := .uploadDocs [notes], token := some "u0 ADMIN 1",
        origin := some "http://localhost:4000", now := 60 },
      .enter 2, .handle 0, .knowledge 0 {}, .knowledge 0 {}, .knowledge 1 { uuid := "k0" },
      .knowledge 1 { id := "d0" }, .knowledge 1 {}, .knowledge 0 {}, .knowledge 0 {}]

/-- The row that it creates. -/
def uploadedNotes : Knowledge.KnowledgeDoc :=
  Knowledge.newDoc Knowledge.exampleConfig { id := "d0" } ⟨"u0"⟩ notes "2025/01/k0_notes.md"

example : (run step (boot exampleSettings) uploadRun).map
    (fun s => s.knowledge.sys.world.docs.rows) = some [uploadedNotes] := by decide +kernel

end ProtostarNest.App
