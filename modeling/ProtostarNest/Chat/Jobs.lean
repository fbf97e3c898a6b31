import ProtostarNest.Chat.Questions
import ProtostarNest.Lib.Transition

/-!
# Chat jobs in flight

Any number of calls of `dispatchJob`, each cut at the two commands of its pipeline, which Redis
executes in order with an outcome for each, and at the end of `exec`.  The commands of different
calls may interleave.

* `Jobs`, `step`: the calls with Redis, and their steps;
* `Kept`: what the calls say about Redis is so, if the steps meet `Succeeds`;
* `FromCalls`, `UniqueIds`: what is in Redis is from a call that says so, and from one only;
* `allOrNothing_iff`: for which runs a returned id has its task and its place on the queue, and
  the queue holds no id without a task;
* `run_alone`: a call that nothing interrupts does what `ChatService.dispatchJob` does.
-/

namespace ProtostarNest.Chat

open Transition

variable {α : Type*}

/-- The effect of the pipelined `SET`. -/
def Redis.set (redis : Redis) (payload : TaskPayload) (ok : Bool) : Redis :=
  { redis with
    tasks := if ok then (taskKey payload.jobId, payload) :: redis.tasks else redis.tasks }

/-- The effect of the pipelined `RPUSH`. -/
def Redis.rpush (redis : Redis) (jobId : String) (ok : Bool) : Redis :=
  { redis with jobQueue := if ok then redis.jobQueue ++ [jobId] else redis.jobQueue }

/-- A call of `dispatchJob`: before the `SET`, before the `RPUSH`, before `exec` resolves, and at
its end.  The outcomes of the commands are in the result of `exec`. -/
inductive JobCall
  | refused (e : DispatchError)
  | set (payload : TaskPayload)
  | rpush (payload : TaskPayload) (setOk : Bool)
  | exec (payload : TaskPayload) (setOk rpushOk : Bool)
  | returned (payload : TaskPayload)
  deriving DecidableEq

/-- The payload of an accepted call. -/
def JobCall.payload? : JobCall → Option TaskPayload
  | .refused _ => none
  | .set payload => some payload
  | .rpush payload _ => some payload
  | .exec payload _ _ => some payload
  | .returned payload => some payload

/-- What `dispatchJob` answers, once it has. -/
def JobCall.result : JobCall → Option (Except DispatchError String)
  | .refused e => some (.error e)
  | .returned payload => some (.ok payload.jobId)
  | _ => none

structure Jobs where
  redis : Redis
  calls : List JobCall
  deriving DecidableEq

def Jobs.empty : Jobs := ⟨⟨[], []⟩, []⟩

/-- A call begins, with the registry and the id and time that it gets; Redis executes the next
command of a call; the `exec` of a call resolves. -/
inductive JobEvent (α : Type*)
  | post (service : ChatService α) (dto : CreateChatDto) (jobId timestamp : String)
  | command (i : ℕ) (ok : Bool)
  | resolve (i : ℕ)

/-- A call after its synchronous part. -/
def JobCall.start (sanitize : String → String) (service : ChatService α) (dto : CreateChatDto)
    (jobId timestamp : String) : JobCall :=
  match service.taskPayload sanitize dto jobId timestamp with
  | .error e => .refused e
  | .ok payload => .set payload

namespace Jobs

def step (sanitize : String → String) (s : Jobs) : JobEvent α → Option Jobs
  | .post service dto jobId timestamp =>
      some { s with calls := s.calls ++ [.start sanitize service dto jobId timestamp] }
  | .command i ok =>
      match s.calls[i]? with
      | some (.set payload) =>
          some ⟨s.redis.set payload ok, s.calls.set i (.rpush payload ok)⟩
      | some (.rpush payload setOk) =>
          some ⟨s.redis.rpush payload.jobId ok, s.calls.set i (.exec payload setOk ok)⟩
      | _ => none
  | .resolve i =>
      match s.calls[i]? with
      -- the result of `exec` is not read
      | some (.exec payload _ _) => some { s with calls := s.calls.set i (.returned payload) }
      | _ => none

/-- A returned id has its task and its place on the queue, and no id on the queue is without its
task. -/
structure AllOrNothing (s : Jobs) : Prop where
  stored : ∀ payload, .returned payload ∈ s.calls →
    (taskKey payload.jobId, payload) ∈ s.redis.tasks ∧ payload.jobId ∈ s.redis.jobQueue
  queued : ∀ jobId ∈ s.redis.jobQueue, ∃ payload, (taskKey jobId, payload) ∈ s.redis.tasks

end Jobs

/-- An `RPUSH` that is to succeed comes after a `SET` that has. -/
def JobCall.Pushable (ok : Bool) : JobCall → Prop
  | .rpush _ setOk => ok = true → setOk = true
  | _ => True

/-- Both commands have succeeded when `exec` resolves. -/
def JobCall.Resolvable : JobCall → Prop
  | .exec _ setOk rpushOk => setOk = true ∧ rpushOk = true
  | _ => True

instance (ok : Bool) (c : JobCall) : Decidable (c.Pushable ok) := by
  rcases c with _ | _ | ⟨_, setOk⟩ | _ | _ <;>
    first | exact instDecidableTrue | exact inferInstanceAs (Decidable (ok = true → setOk = true))

instance (c : JobCall) : Decidable c.Resolvable := by
  rcases c with _ | _ | _ | ⟨_, setOk, rpushOk⟩ | _ <;>
    first
    | exact instDecidableTrue
    | exact inferInstanceAs (Decidable (setOk = true ∧ rpushOk = true))

namespace Jobs

/-- The `RPUSH` of a call succeeds only after its `SET` has, and both have when `exec`
resolves. -/
def Succeeds (s : Jobs) : JobEvent α → Prop
  | .post _ _ _ _ => True
  | .command i ok => ∀ c ∈ s.calls[i]?, c.Pushable ok
  | .resolve i => ∀ c ∈ s.calls[i]?, c.Resolvable

/-- `uuidv4()` gives a new id to each call. -/
def FreshIds (s : Jobs) : JobEvent α → Prop
  | .post _ _ jobId _ => ∀ c ∈ s.calls, ∀ payload ∈ c.payload?, payload.jobId ≠ jobId
  | _ => True

instance (s : Jobs) (e : JobEvent α) : Decidable (Succeeds s e) := by
  rcases e with _ | ⟨i, ok⟩ | i
  · exact instDecidableTrue
  · exact inferInstanceAs (Decidable (∀ c ∈ s.calls[i]?, c.Pushable ok))
  · exact inferInstanceAs (Decidable (∀ c ∈ s.calls[i]?, c.Resolvable))

instance (s : Jobs) (e : JobEvent α) : Decidable (FreshIds s e) := by
  rcases e with ⟨_, _, jobId, _⟩ | _ | _
  · exact inferInstanceAs (Decidable (∀ c ∈ s.calls, ∀ payload ∈ c.payload?, _))
  · exact instDecidableTrue
  · exact instDecidableTrue

/-- What the step of the call `i` does to it and to Redis. -/
inductive Moves (redis : Redis) (i : ℕ) : JobEvent α → JobCall → JobCall → Redis → Prop
  | set (payload : TaskPayload) (ok : Bool) :
      Moves redis i (.command i ok) (.set payload) (.rpush payload ok) (redis.set payload ok)
  | rpush (payload : TaskPayload) (setOk ok : Bool) :
      Moves redis i (.command i ok) (.rpush payload setOk) (.exec payload setOk ok)
        (redis.rpush payload.jobId ok)
  | exec (payload : TaskPayload) (setOk rpushOk : Bool) :
      Moves redis i (.resolve i) (.exec payload setOk rpushOk) (.returned payload) redis

section Steps

variable {sanitize : String → String} {s s' : Jobs} {e : JobEvent α} {i : ℕ} {c c' : JobCall}
  {redis redis' : Redis} {payload : TaskPayload}

theorem step_cases (h : step sanitize s e = some s') :
    (∃ service dto jobId timestamp, e = .post service dto jobId timestamp ∧
      s' = { s with calls := s.calls ++ [.start sanitize service dto jobId timestamp] }) ∨
    ∃ i c c', s.calls[i]? = some c ∧ Moves s.redis i e c c' s'.redis ∧
      s'.calls = s.calls.set i c' := by
  cases e with
  | post service dto jobId timestamp =>
    exact Or.inl ⟨service, dto, jobId, timestamp, rfl, (Option.some.inj h).symm⟩
  | command i ok =>
    simp only [step] at h
    split at h
    · rename_i payload hc
      obtain rfl := Option.some.inj h
      exact Or.inr ⟨i, _, _, hc, .set payload ok, rfl⟩
    · rename_i payload setOk hc
      obtain rfl := Option.some.inj h
      exact Or.inr ⟨i, _, _, hc, .rpush payload setOk ok, rfl⟩
    · cases h
  | resolve i =>
    simp only [step] at h
    split at h
    · rename_i payload setOk rpushOk hc
      obtain rfl := Option.some.inj h
      exact Or.inr ⟨i, _, _, hc, .exec payload setOk rpushOk, rfl⟩
    · cases h

theorem start_payload {service : ChatService α} {dto : CreateChatDto} {jobId timestamp : String}
    (h : (JobCall.start sanitize service dto jobId timestamp).payload? = some payload) :
    JobCall.start sanitize service dto jobId timestamp = .set payload ∧
      payload.jobId = jobId := by
  unfold JobCall.start at h ⊢
  cases hp : service.taskPayload sanitize dto jobId timestamp with
  | error e => rw [hp] at h; cases h
  | ok p =>
    rw [hp] at h
    obtain rfl : p = payload := Option.some.inj h
    exact ⟨rfl, taskPayload_jobId hp⟩

theorem Moves.payload? (h : Moves redis i e c c' redis') : c'.payload? = c.payload? := by
  cases h <;> rfl

end Steps

end Jobs

/-- The `SET` of the call has succeeded, by what the caller is told at the end. -/
def JobCall.setOk : JobCall → Bool
  | .rpush _ setOk => setOk
  | .exec _ setOk _ => setOk
  | .returned _ => true
  | _ => false

/-- The same for the `RPUSH`. -/
def JobCall.rpushOk : JobCall → Bool
  | .exec _ _ rpushOk => rpushOk
  | .returned _ => true
  | _ => false

/-- What the calls say about Redis is so. -/
structure Jobs.Kept (s : Jobs) : Prop where
  set : ∀ c ∈ s.calls, ∀ payload ∈ c.payload?, c.setOk = true →
    (taskKey payload.jobId, payload) ∈ s.redis.tasks
  rpush : ∀ c ∈ s.calls, ∀ payload ∈ c.payload?, c.rpushOk = true →
    payload.jobId ∈ s.redis.jobQueue

/-- What is in Redis is from a call that says so. -/
structure Jobs.FromCalls (s : Jobs) : Prop where
  set : ∀ key payload, (key, payload) ∈ s.redis.tasks →
    key = taskKey payload.jobId ∧ ∃ c ∈ s.calls, c.payload? = some payload ∧ c.setOk = true
  rpush : ∀ jobId ∈ s.redis.jobQueue,
    ∃ c ∈ s.calls, ∃ payload, c.payload? = some payload ∧ payload.jobId = jobId ∧
      c.rpushOk = true

/-- Two calls do not have one job id. -/
def Jobs.UniqueIds (s : Jobs) : Prop :=
  ∀ (i j : ℕ) (c d : JobCall) (p q : TaskPayload), s.calls[i]? = some c → s.calls[j]? = some d →
    c.payload? = some p → d.payload? = some q → p.jobId = q.jobId → i = j

namespace Jobs

section Invariants

variable {sanitize : String → String} {s s' : Jobs} {e : JobEvent α} {i : ℕ} {c c' : JobCall}
  {redis redis' : Redis} {payload : TaskPayload}

@[simp] theorem setOk_start (service : ChatService α) (dto : CreateChatDto)
    (jobId timestamp : String) :
    (JobCall.start sanitize service dto jobId timestamp).setOk = false := by
  unfold JobCall.start
  split <;> rfl

@[simp] theorem rpushOk_start (service : ChatService α) (dto : CreateChatDto)
    (jobId timestamp : String) :
    (JobCall.start sanitize service dto jobId timestamp).rpushOk = false := by
  unfold JobCall.start
  split <;> rfl

/-- Redis only grows. -/
theorem Moves.mono (h : Moves redis i e c c' redis') :
    redis.tasks ⊆ redis'.tasks ∧ redis.jobQueue ⊆ redis'.jobQueue := by
  cases h with
  | set payload ok => cases ok <;> simp [Redis.set]
  | rpush payload setOk ok => cases ok <;> simp [Redis.rpush]
  | exec payload setOk rpushOk => simp

theorem Kept.of_mem (hs : s.Kept) (htasks : s.redis.tasks ⊆ s'.redis.tasks)
    (hqueue : s.redis.jobQueue ⊆ s'.redis.jobQueue)
    (hnew : ∀ c ∈ s'.calls, c ∈ s.calls ∨ ∀ payload ∈ c.payload?,
      (c.setOk = true → (taskKey payload.jobId, payload) ∈ s'.redis.tasks) ∧
        (c.rpushOk = true → payload.jobId ∈ s'.redis.jobQueue)) : s'.Kept := by
  refine ⟨fun c hc payload hp hok => ?_, fun c hc payload hp hok => ?_⟩
  · rcases hnew c hc with hold | hnew
    · exact htasks (hs.set c hold payload hp hok)
    · exact (hnew payload hp).1 hok
  · rcases hnew c hc with hold | hnew
    · exact hqueue (hs.rpush c hold payload hp hok)
    · exact (hnew payload hp).2 hok

/-- The result of a call that moved on is so, if the step met the condition. -/
theorem Kept.moved (hs : s.Kept) (hsucc : Succeeds s e) (hc : s.calls[i]? = some c)
    (h : Moves s.redis i e c c' redis') (hp : payload ∈ c'.payload?) :
    (c'.setOk = true → (taskKey payload.jobId, payload) ∈ redis'.tasks) ∧
      (c'.rpushOk = true → payload.jobId ∈ redis'.jobQueue) := by
  have hmem := List.mem_of_getElem? hc
  cases h with
  | set p ok =>
    obtain rfl : p = payload := Option.some.inj hp
    exact ⟨fun hok => by simp [Redis.set, show ok = true from hok], fun hok => by cases hok⟩
  | rpush p setOk ok =>
    obtain rfl : p = payload := Option.some.inj hp
    exact ⟨fun hok => hs.set _ hmem p rfl hok,
      fun hok => by simp [Redis.rpush, show ok = true from hok]⟩
  | exec p setOk rpushOk =>
    obtain rfl : p = payload := Option.some.inj hp
    obtain ⟨hset, hrpush⟩ : setOk = true ∧ rpushOk = true := hsucc _ hc
    exact ⟨fun _ => hs.set _ hmem p rfl hset, fun _ => hs.rpush _ hmem p rfl hrpush⟩

theorem Kept.step (hs : s.Kept) (hsucc : Succeeds s e) (h : step sanitize s e = some s') :
    s'.Kept := by
  rcases step_cases h with ⟨service, dto, jobId, timestamp, rfl, rfl⟩ |
    ⟨i, c, c', hc, hmoves, hcalls⟩
  · refine hs.of_mem (List.Subset.refl _) (List.Subset.refl _) fun c hc => ?_
    rcases List.mem_append.1 hc with hold | hnew
    · exact Or.inl hold
    · obtain rfl := List.mem_singleton.1 hnew
      exact Or.inr fun payload hp => by simp
  · refine hs.of_mem hmoves.mono.1 hmoves.mono.2 fun d hd => ?_
    rw [hcalls] at hd
    rcases List.mem_or_eq_of_mem_set hd with hold | rfl
    · exact Or.inl hold
    · exact Or.inr fun payload hp => hs.moved hsucc hc hmoves hp

/-- An id comes on the queue after its task, if the steps meet the condition. -/
theorem queued_step (hs : s.Kept) (hq : ∀ jobId ∈ s.redis.jobQueue,
      ∃ payload, (taskKey jobId, payload) ∈ s.redis.tasks) (hsucc : Succeeds s e)
    (h : step sanitize s e = some s') :
    ∀ jobId ∈ s'.redis.jobQueue, ∃ payload, (taskKey jobId, payload) ∈ s'.redis.tasks := by
  intro jobId hjob
  rcases step_cases h with ⟨service, dto, id, timestamp, rfl, rfl⟩ | ⟨i, c, c', hc, hmoves, -⟩
  · exact hq jobId hjob
  · generalize s'.redis = redis' at hmoves hjob ⊢
    have hmono := hmoves.mono.1
    have hold : jobId ∈ s.redis.jobQueue → ∃ payload, (taskKey jobId, payload) ∈ redis'.tasks := by
      intro hjob
      obtain ⟨payload, hp⟩ := hq jobId hjob
      exact ⟨payload, hmono hp⟩
    cases hmoves with
    | set payload ok => exact hold hjob
    | exec payload setOk rpushOk => exact hold hjob
    | rpush payload setOk ok =>
      have hset : ok = true → setOk = true := hsucc _ hc
      cases ok with
      | false => exact hold hjob
      | true =>
        rcases List.mem_append.1 hjob with hjob | hjob
        · exact hold hjob
        · obtain rfl := List.mem_singleton.1 hjob
          exact ⟨payload, hs.set _ (List.mem_of_getElem? hc) payload rfl (hset rfl)⟩

theorem Kept.allOrNothing (hs : s.Kept) (hq : ∀ jobId ∈ s.redis.jobQueue,
    ∃ payload, (taskKey jobId, payload) ∈ s.redis.tasks) : s.AllOrNothing :=
  ⟨fun payload hp => ⟨hs.set _ hp payload rfl rfl, hs.rpush _ hp payload rfl rfl⟩, hq⟩

/-- A call that moved on has the outcomes that it had. -/
theorem Moves.outcomes (h : Moves redis i e c c' redis') :
    (c.setOk = true → c'.setOk = true) ∧ (c.rpushOk = true → c'.rpushOk = true) := by
  cases h with
  | set payload ok => exact ⟨fun h => (by cases h), fun h => (by cases h)⟩
  | rpush payload setOk ok => exact ⟨id, fun h => (by cases h)⟩
  | exec payload setOk rpushOk => exact ⟨fun _ => rfl, fun _ => rfl⟩

/-- What is new in Redis after a move is from the call that moved. -/
theorem Moves.fromCall (h : Moves redis i e c c' redis') :
    (∀ key payload, (key, payload) ∈ redis'.tasks → (key, payload) ∈ redis.tasks ∨
      (key = taskKey payload.jobId ∧ c'.payload? = some payload ∧ c'.setOk = true)) ∧
    ∀ jobId ∈ redis'.jobQueue, jobId ∈ redis.jobQueue ∨
      ∃ payload, c'.payload? = some payload ∧ payload.jobId = jobId ∧ c'.rpushOk = true := by
  cases h with
  | set payload ok =>
    refine ⟨fun key p hp => ?_, fun jobId hjob => Or.inl hjob⟩
    cases ok with
    | false => exact Or.inl hp
    | true =>
      rcases List.mem_cons.1 hp with heq | hold
      · cases heq
        exact Or.inr ⟨rfl, rfl, rfl⟩
      · exact Or.inl hold
  | rpush payload setOk ok =>
    refine ⟨fun key p hp => Or.inl hp, fun jobId hjob => ?_⟩
    cases ok with
    | false => exact Or.inl hjob
    | true =>
      rcases List.mem_append.1 hjob with hold | hnew
      · exact Or.inl hold
      · exact Or.inr ⟨payload, rfl, (List.mem_singleton.1 hnew).symm, rfl⟩
  | exec payload setOk rpushOk => exact ⟨fun key p hp => Or.inl hp, fun jobId hjob => Or.inl hjob⟩

/-- A call before a step is there after it, with its payload and its outcomes. -/
theorem call_step (h : step sanitize s e = some s') (hc : c ∈ s.calls) :
    ∃ c' ∈ s'.calls, c'.payload? = c.payload? ∧ (c.setOk = true → c'.setOk = true) ∧
      (c.rpushOk = true → c'.rpushOk = true) := by
  rcases step_cases h with ⟨service, dto, jobId, timestamp, rfl, rfl⟩ |
    ⟨i, d, d', hd, hmoves, hcalls⟩
  · exact ⟨c, List.mem_append_left _ hc, rfl, id, id⟩
  · obtain ⟨j, hj⟩ := List.getElem?_of_mem hc
    by_cases hij : i = j
    · subst hij
      obtain rfl : c = d := Option.some.inj (hj.symm.trans hd)
      have hi := (List.getElem?_eq_some_iff.1 hd).1
      refine ⟨d', ?_, hmoves.payload?, hmoves.outcomes⟩
      rw [hcalls]
      exact List.mem_set hi d'
    · refine ⟨c, ?_, rfl, id, id⟩
      rw [hcalls]
      exact List.mem_of_getElem? ((List.getElem?_set_ne hij).trans hj)

theorem FromCalls.step (hs : s.FromCalls) (h : step sanitize s e = some s') : s'.FromCalls := by
  have hset : ∀ payload, (∃ c ∈ s.calls, c.payload? = some payload ∧ c.setOk = true) →
      ∃ c ∈ s'.calls, c.payload? = some payload ∧ c.setOk = true := by
    rintro payload ⟨c, hc, hp, hok⟩
    obtain ⟨c', hc', hp', hset, -⟩ := call_step h hc
    exact ⟨c', hc', hp'.trans hp, hset hok⟩
  have hrpush : ∀ jobId, (∃ c ∈ s.calls, ∃ payload, c.payload? = some payload ∧
        payload.jobId = jobId ∧ c.rpushOk = true) →
      ∃ c ∈ s'.calls, ∃ payload, c.payload? = some payload ∧ payload.jobId = jobId ∧
        c.rpushOk = true := by
    rintro jobId ⟨c, hc, payload, hp, hid, hok⟩
    obtain ⟨c', hc', hp', -, hrpush⟩ := call_step h hc
    exact ⟨c', hc', payload, hp'.trans hp, hid, hrpush hok⟩
  rcases step_cases h with ⟨service, dto, jobId, timestamp, rfl, rfl⟩ |
    ⟨i, c, c', hc, hmoves, hcalls⟩
  · exact ⟨fun key payload hp => ⟨(hs.set key payload hp).1, hset _ (hs.set key payload hp).2⟩,
      fun jobId hjob => hrpush _ (hs.rpush jobId hjob)⟩
  · have hmem : c' ∈ s'.calls := by
      rw [hcalls]
      exact List.mem_set (List.getElem?_eq_some_iff.1 hc).1 c'
    refine ⟨fun key payload hp => ?_, fun jobId hjob => ?_⟩
    · rcases hmoves.fromCall.1 key payload hp with hold | ⟨hkey, hpayload, hok⟩
      · exact ⟨(hs.set key payload hold).1, hset _ (hs.set key payload hold).2⟩
      · exact ⟨hkey, c', hmem, hpayload, hok⟩
    · rcases hmoves.fromCall.2 jobId hjob with hold | ⟨payload, hpayload, hid, hok⟩
      · exact hrpush _ (hs.rpush jobId hold)
      · exact ⟨c', hmem, payload, hpayload, hid, hok⟩

theorem UniqueIds.step (hs : s.UniqueIds) (hfresh : FreshIds s e)
    (h : step sanitize s e = some s') : s'.UniqueIds := by
  rcases step_cases h with ⟨service, dto, jobId, timestamp, rfl, rfl⟩ |
    ⟨i, c, c', hc, hmoves, hcalls⟩
  · -- the new call is at the end of the list
    have hnew : ∀ (j : ℕ) (d : JobCall) (q : TaskPayload),
        (s.calls ++ [JobCall.start sanitize service dto jobId timestamp])[j]? = some d →
        d.payload? = some q →
        s.calls[j]? = some d ∨ (j = s.calls.length ∧ q.jobId = jobId) := by
      intro j d q hd hq
      rw [List.getElem?_append] at hd
      split_ifs at hd with hlt
      · exact Or.inl hd
      · obtain ⟨hzero, rfl⟩ := List.getElem?_eq_some_iff.1 hd
        rw [List.length_singleton] at hzero
        exact Or.inr ⟨by omega, (start_payload (by simpa using hq)).2⟩
    intro j k c d p q hc hd hp hq hid
    rcases hnew j c p hc hp with hj | ⟨hj, hpid⟩ <;>
      rcases hnew k d q hd hq with hk | ⟨hk, hqid⟩
    · exact hs j k c d p q hj hk hp hq hid
    · exact absurd (hid.trans hqid) (hfresh c (List.mem_of_getElem? hj) p hp)
    · exact absurd (hid.symm.trans hpid) (hfresh d (List.mem_of_getElem? hk) q hq)
    · exact hj.trans hk.symm
  · -- a move keeps the payloads
    have hold : ∀ (j : ℕ) (d : JobCall), s'.calls[j]? = some d →
        ∃ d', s.calls[j]? = some d' ∧ d'.payload? = d.payload? := by
      intro j d hd
      rw [hcalls] at hd
      by_cases hij : i = j
      · subst hij
        rw [List.getElem?_set_self (List.getElem?_eq_some_iff.1 hc).1] at hd
        obtain rfl := Option.some.inj hd
        exact ⟨c, hc, hmoves.payload?.symm⟩
      · rw [List.getElem?_set_ne hij] at hd
        exact ⟨d, hd, rfl⟩
    intro j k c d p q hc hd hp hq hid
    obtain ⟨c₀, hc₀, hp₀⟩ := hold j c hc
    obtain ⟨d₀, hd₀, hq₀⟩ := hold k d hd
    exact hs j k c₀ d₀ p q hc₀ hd₀ (hp₀.trans hp) (hq₀.trans hq) hid

/-- A call that says that it has not stored its task has not. -/
theorem FromCalls.setOk (hs : s.FromCalls) (hu : s.UniqueIds) (hc : s.calls[i]? = some c)
    (hp : c.payload? = some payload) {payload' : TaskPayload}
    (hmem : (taskKey payload.jobId, payload') ∈ s.redis.tasks) : c.setOk = true := by
  obtain ⟨hkey, d, hd, hq, hok⟩ := hs.set _ _ hmem
  obtain ⟨j, hj⟩ := List.getElem?_of_mem hd
  obtain rfl := hu i j c d payload payload' hc hj hp hq (taskKey_inj hkey)
  obtain rfl : c = d := Option.some.inj (hc.symm.trans hj)
  exact hok

/-- The same for the place on the queue. -/
theorem FromCalls.rpushOk (hs : s.FromCalls) (hu : s.UniqueIds) (hc : s.calls[i]? = some c)
    (hp : c.payload? = some payload) (hmem : payload.jobId ∈ s.redis.jobQueue) :
    c.rpushOk = true := by
  obtain ⟨d, hd, payload', hq, hid, hok⟩ := hs.rpush _ hmem
  obtain ⟨j, hj⟩ := List.getElem?_of_mem hd
  obtain rfl := hu i j c d payload payload' hc hj hp hq hid.symm
  obtain rfl : c = d := Option.some.inj (hc.symm.trans hj)
  exact hok

/-- What the property after a step says about the outcomes before it. -/
theorem AllOrNothing.succeeds (hs' : s'.AllOrNothing) (hs : s.FromCalls) (hu : s.UniqueIds)
    (h : step sanitize s e = some s') : Succeeds s e := by
  rcases step_cases h with ⟨service, dto, jobId, timestamp, rfl, rfl⟩ |
    ⟨i, c, c', hc, hmoves, hcalls⟩
  · trivial
  · have hmem : c' ∈ s'.calls := by
      rw [hcalls]
      exact List.mem_set (List.getElem?_eq_some_iff.1 hc).1 c'
    obtain ⟨hstored, hqueued⟩ := hs'
    generalize s'.redis = redis' at hmoves hstored hqueued
    cases hmoves with
    | set payload ok =>
      intro d hd
      obtain rfl := Option.some.inj (hc.symm.trans hd)
      trivial
    | rpush payload setOk ok =>
      intro d hd
      obtain rfl := Option.some.inj (hc.symm.trans hd)
      rintro rfl
      obtain ⟨payload', hp'⟩ := hqueued payload.jobId (by simp [Redis.rpush])
      exact hs.setOk hu hc rfl hp'
    | exec payload setOk rpushOk =>
      intro d hd
      obtain rfl := Option.some.inj (hc.symm.trans hd)
      obtain ⟨htask, hid⟩ := hstored payload hmem
      exact ⟨hs.setOk hu hc rfl htask, hs.rpushOk hu hc rfl hid⟩

theorem kept_empty : empty.Kept :=
  ⟨fun _ hc => absurd hc List.not_mem_nil, fun _ hc => absurd hc List.not_mem_nil⟩

theorem fromCalls_empty : empty.FromCalls :=
  ⟨fun _ _ hp => absurd hp List.not_mem_nil, fun _ hjob => absurd hjob List.not_mem_nil⟩

/-- **Each dispatch is all or nothing, all along a run, iff in each call the `RPUSH` succeeds only
after the `SET` has, and both have when the call returns.** -/
theorem allOrNothing_iff (sanitize : String → String) (es : List (JobEvent α))
    (hfresh : Meets (step sanitize) FreshIds empty es) :
    (∀ s, Visits (step sanitize) empty es s → s.AllOrNothing) ↔
      Meets (step sanitize) Succeeds empty es := by
  constructor
  · intro hall
    have hkeep : ∀ s (e : JobEvent α) s', (s.FromCalls ∧ s.UniqueIds) → FreshIds s e →
        step sanitize s e = some s' → s'.FromCalls ∧ s'.UniqueIds := by
      rintro s e s' ⟨hf, hu⟩ hfresh hstep
      exact ⟨hf.step hstep, hu.step hfresh hstep⟩
    have hempty : empty.FromCalls ∧ empty.UniqueIds :=
      ⟨fromCalls_empty, fun i j c d p q hc => by cases hc⟩
    refine meets_of_visits fun s e s' hs hs' hstep => ?_
    obtain ⟨hf, hu⟩ := invariant_of_meets hkeep hempty hfresh s hs
    exact (hall s' hs').succeeds hf hu hstep
  · intro hmeets s hs
    have hkeep : ∀ s (e : JobEvent α) s', (s.Kept ∧ ∀ jobId ∈ s.redis.jobQueue,
          ∃ payload, (taskKey jobId, payload) ∈ s.redis.tasks) → Succeeds s e →
        step sanitize s e = some s' → s'.Kept ∧ ∀ jobId ∈ s'.redis.jobQueue,
          ∃ payload, (taskKey jobId, payload) ∈ s'.redis.tasks := by
      rintro s e s' ⟨hk, hq⟩ hsucc hstep
      exact ⟨hk.step hsucc hstep, queued_step hk hq hsucc hstep⟩
    have hempty : empty.Kept ∧ ∀ jobId ∈ empty.redis.jobQueue,
        ∃ payload, (taskKey jobId, payload) ∈ empty.redis.tasks :=
      ⟨kept_empty, fun jobId hjob => absurd hjob List.not_mem_nil⟩
    obtain ⟨hk, hq⟩ := invariant_of_meets hkeep hempty hmeets s hs
    exact hk.allOrNothing hq

end Invariants

/-! Two questions whose commands interleave, and one whose `SET` Redis rejects. -/

def questionDto : CreateChatDto :=
  { blankDto with mode := .general, context := none, context_ne := fun h => by cases h }

def twoQuestions : List (JobEvent String) :=
  [.post connected questionDto "j0" "t0", .post connected questionDto "j1" "t1", .command 0 true,
    .command 1 true, .command 1 true, .command 0 true, .resolve 0, .resolve 1]

theorem allOrNothing_twoQuestions : ∃ s,
    run (step id) empty twoQuestions = some s ∧ s.redis.jobQueue = ["j1", "j0"] ∧
      s.AllOrNothing := by
  have hrun : (run (step id) empty twoQuestions).map (fun s => s.redis.jobQueue) =
      some ["j1", "j0"] := by decide
  obtain ⟨s, hs, hqueue⟩ := Option.map_eq_some_iff.1 hrun
  exact ⟨s, hs, hqueue, (allOrNothing_iff id twoQuestions (by decide)).2 (by decide) s
    (Visits.of_run hs)⟩

def rejectedSet : List (JobEvent String) :=
  [.post connected questionDto "j0" "t0", .command 0 false, .command 0 true, .resolve 0]

theorem rejectedSet_not_allOrNothing :
    ¬ ∀ (sanitize : String → String) (es : List (JobEvent String)),
      Meets (step sanitize) FreshIds empty es →
        ∀ s, Visits (step sanitize) empty es s → s.AllOrNothing := by
  intro h
  have hrun : (run (step id) empty rejectedSet).map
      (fun s => (s.redis.jobQueue, s.redis.tasks, s.calls.map JobCall.result)) =
        some (["j0"], [], [some (.ok "j0")]) := by decide
  obtain ⟨s, hs, hlast⟩ := Visits.of_run_map hrun
  obtain ⟨hqueue, hrest⟩ := Prod.mk.inj hlast
  obtain ⟨htasks, -⟩ := Prod.mk.inj hrest
  obtain ⟨payload, hp⟩ := (h id rejectedSet (by decide) s hs).queued "j0" (by simp [hqueue])
  simp [htasks] at hp

/-! ### One call alone -/

/-- The steps of the call `i`, from its arrival, with nothing in between. -/
def alone (i : ℕ) (service : ChatService α) (dto : CreateChatDto) (env : DispatchEnv) :
    List (JobEvent α) :=
  [.post service dto env.jobId env.timestamp, .command i env.setOk, .command i env.rpushOk,
    .resolve i]

/-- **A call that nothing interrupts does what `dispatchJob` does.** -/
theorem run_alone {sanitize : String → String} {s : Jobs} {service : ChatService α}
    {dto : CreateChatDto} {env : DispatchEnv} {jobId : String} {redis : Redis}
    (h : service.dispatchJob sanitize s.redis dto env = (.ok jobId, redis)) :
    ∃ payload, payload.jobId = jobId ∧
      run (step sanitize) s (alone s.calls.length service dto env) =
        some ⟨redis, s.calls ++ [.returned payload]⟩ := by
  rw [dispatchJob_eq] at h
  cases hp : service.taskPayload sanitize dto env.jobId env.timestamp with
  | error e =>
    rw [hp] at h
    cases h
  | ok payload =>
    rw [hp] at h
    cases h
    refine ⟨payload, rfl, ?_⟩
    have hstart : JobCall.start sanitize service dto env.jobId env.timestamp = .set payload := by
      rw [JobCall.start, hp]
    simp [alone, run_cons, step, hstart, List.set_append_right, Redis.set, Redis.rpush,
      Redis.pipeline]

end Jobs

end ProtostarNest.Chat
