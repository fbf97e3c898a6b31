import Mathlib.Data.List.Nodup
import ProtostarNest.Chat.Service
import ProtostarNest.Lib.Transition

/-!
# The chat server over whole runs

One server instance with the connections that are open on it.  The labels of a run are the SSE
requests, the ends of connections (each runs its `finalize` callback), the posted questions and
the Redis messages, in any order.

* `step`: what one of them does;
* `step_cases`: its inversion, with `opened` and `closed` for the two that touch the registry;
* `Consistent`: every registered `Subject` is open and belongs to a live connection with the key
  it is registered under, and the counter is never below the number of live connections;
* `consistent_of_reachable`.
-/

namespace ProtostarNest.Chat

open Transition

/-- The library functions that the feature calls: `JSON.parse` and `sanitize-html`. -/
structure External (α : Type*) where
  parse : String → Option α
  sanitize : String → String

/-- The service, the connections accepted and not yet disconnected, and Redis. -/
structure ChatServer (α : Type*) where
  service : ChatService α
  live : List Connection
  redis : Redis

inductive Event
  | connect (r : StreamRequest)
  | disconnect (c : Connection)
  | dispatchJob (dto : CreateChatDto) (env : DispatchEnv)
  | pmessage (channel message : String)

variable {α : Type*} (lib : External α)

def ChatServer.init : ChatServer α := ⟨ChatService.init, [], ⟨[], []⟩⟩

/-- The response that observes a `Subject` ends. -/
def ChatService.unsubscribe (s : ChatService α) (ref : ℕ) : ChatService α :=
  { s with subjects := s.subjects.modify ref Subject.unsubscribe }

/-- The end of a connection: its response stops observing and `finalize` calls `removeClient`. -/
def ChatServer.closed (s : ChatServer α) (c : Connection) : ChatServer α :=
  { s with
    service := (s.service.unsubscribe c.subject).removeClient c.uuid c.sessionId
    live := s.live.erase c }

/-- One label. A connection that is not live cannot disconnect. -/
def step (s : ChatServer α) : Event → Option (ChatServer α)
  | .connect r =>
      match stream s.service r with
      | (.ok c, service) => some { s with service := service, live := s.live ++ [c] }
      | (.error _, service) => some { s with service := service }
  | .disconnect c => if c ∈ s.live then some (s.closed c) else none
  | .dispatchJob dto env =>
      some { s with redis := (s.service.dispatchJob lib.sanitize s.redis dto env).2 }
  | .pmessage channel message =>
      some { s with service := s.service.routeMessageToUser lib.parse channel message }

/-! ### What each function of the service does -/

namespace ChatService

variable {s : ChatService α}

theorem hasActiveStream_iff {uuid sessionId : String} :
    s.hasActiveStream uuid sessionId = true ↔
      ∃ ref, s.streamMap.lookup (streamKey uuid sessionId) = some ref := by
  rw [hasActiveStream, decide_eq_true_iff, ← AList.lookup_isSome, Option.isSome_iff_exists]

theorem removeClient_of_lookup {uuid sessionId : String} {ref : ℕ}
    (h : s.streamMap.lookup (streamKey uuid sessionId) = some ref) :
    s.removeClient uuid sessionId =
      { streamMap := s.streamMap.erase (streamKey uuid sessionId)
        activeConnections := s.activeConnections - 1
        subjects := s.subjects.modify ref Subject.complete } := by
  have hmem : streamKey uuid sessionId ∈ s.streamMap := by
    rw [← AList.lookup_isSome, h]; rfl
  rw [removeClient, if_pos hmem, h]
  simp only [decrementActiveConnections]
  split_ifs with hz
  · simp [Nat.le_zero.1 hz]
  · rfl

theorem removeClient_of_lookup_none {uuid sessionId : String}
    (h : s.streamMap.lookup (streamKey uuid sessionId) = none) :
    s.removeClient uuid sessionId = s := by
  rw [removeClient, if_neg (AList.lookup_eq_none.1 h)]

theorem routeTarget_eq_some {channel : String} {ref : ℕ} (h : s.routeTarget channel = some ref) :
    ∃ k, channelKey channel = some k ∧ s.streamMap.lookup k = some ref := by
  unfold routeTarget at h
  split at h
  · cases h
  · rename_i k hk
    split_ifs at h
    exact ⟨k, hk, h⟩

theorem routeTarget_of_lookup {channel k : String} {ref : ℕ} (hk : channelKey channel = some k)
    (hne : k ≠ "") (h : s.streamMap.lookup k = some ref) : s.routeTarget channel = some ref := by
  have hmem : k ∈ s.streamMap := by rw [← AList.lookup_isSome, h]; rfl
  simp [routeTarget, hk, hne, hmem, h]

theorem route_cases (parse : String → Option α) (channel message : String) :
    s.routeMessageToUser parse channel message = s ∨
      ∃ ref payload, s.routeTarget channel = some ref ∧ parse message = some payload ∧
        s.routeMessageToUser parse channel message =
          { s with subjects := s.subjects.modify ref (Subject.next payload) } := by
  cases ht : s.routeTarget channel with
  | none => exact Or.inl (by rw [routeMessageToUser, ht])
  | some ref =>
    cases hp : parse message with
    | none => exact Or.inl (by rw [routeMessageToUser, ht]; simp only [hp])
    | some payload =>
      exact Or.inr ⟨ref, payload, rfl, rfl, by rw [routeMessageToUser, ht]; simp only [hp]⟩

/-- A message that is no JSON is dropped. -/
theorem route_of_parse_none {parse : String → Option α} {message : String}
    (hp : parse message = none) (channel : String) :
    s.routeMessageToUser parse channel message = s := by
  rcases s.route_cases parse channel message with heq | ⟨ref, payload, -, hsome, -⟩
  · exact heq
  · rw [hp] at hsome
    cases hsome

end ChatService

/-- The server after `stream` has accepted a request. -/
def ChatServer.opened (s : ChatServer α) (r : StreamRequest) : ChatServer α :=
  { s with
    service :=
      { streamMap :=
          s.service.streamMap.insert (streamKey r.targetUuid r.sessionId)
            s.service.subjects.length
        activeConnections := s.service.activeConnections + 1
        subjects := s.service.subjects ++ [Subject.new.subscribe] }
    live := s.live ++ [⟨r.targetUuid, r.sessionId, s.service.subjects.length⟩] }

theorem modify_concat_length (l : List (Subject α)) (a : Subject α)
    (f : Subject α → Subject α) : (l ++ [a]).modify l.length f = l ++ [f a] := by
  rw [List.modify_eq_take_cons_drop (by simp)]; simp

theorem stream_of_lt {s : ChatService α} (h : s.activeConnections < CHAT_MAX_CONNECTIONS)
    (r : StreamRequest) :
    stream s r =
      (.ok ⟨r.targetUuid, r.sessionId, s.subjects.length⟩,
        { streamMap :=
            s.streamMap.insert (streamKey r.targetUuid r.sessionId) s.subjects.length
          activeConnections := s.activeConnections + 1
          subjects := s.subjects ++ [Subject.new.subscribe] }) := by
  simp [stream, ChatService.isOkayToConnect, ChatService.addClient,
    ChatService.incrementActiveConnections, Nat.not_le.2 h, h, modify_concat_length]

theorem stream_of_ge {s : ChatService α} (h : CHAT_MAX_CONNECTIONS ≤ s.activeConnections)
    (r : StreamRequest) : stream s r = (.error fullCapacity, s) := by
  simp [stream, ChatService.isOkayToConnect, Nat.not_lt.2 h]

/-- Everything that one label can do. -/
theorem step_cases {s t : ChatServer α} {e : Event} (h : step lib s e = some t) :
    (∃ r, e = .connect r ∧ s.service.activeConnections < CHAT_MAX_CONNECTIONS ∧ t = s.opened r) ∨
    (∃ r, e = .connect r ∧ CHAT_MAX_CONNECTIONS ≤ s.service.activeConnections ∧ t = s) ∨
    (∃ c, e = .disconnect c ∧ c ∈ s.live ∧ t = s.closed c) ∨
    (∃ dto env, e = .dispatchJob dto env ∧
      t = { s with redis := (s.service.dispatchJob lib.sanitize s.redis dto env).2 }) ∨
    ∃ channel message, e = .pmessage channel message ∧
      t = { s with service := s.service.routeMessageToUser lib.parse channel message } := by
  cases e with
  | connect r =>
    rcases Nat.lt_or_ge s.service.activeConnections CHAT_MAX_CONNECTIONS with hlt | hge
    · simp only [step, stream_of_lt hlt, Option.some.injEq] at h
      exact Or.inl ⟨r, rfl, hlt, h.symm⟩
    · simp only [step, stream_of_ge hge, Option.some.injEq] at h
      exact Or.inr (Or.inl ⟨r, rfl, hge, h.symm⟩)
  | disconnect c =>
    simp only [step] at h
    split_ifs at h with hc
    exact Or.inr (Or.inr (Or.inl ⟨c, rfl, hc, (Option.some.inj h).symm⟩))
  | dispatchJob dto env =>
    exact Or.inr (Or.inr (Or.inr (Or.inl ⟨dto, env, rfl, (Option.some.inj h).symm⟩)))
  | pmessage channel message =>
    exact Or.inr (Or.inr (Or.inr (Or.inr ⟨channel, message, rfl, (Option.some.inj h).symm⟩)))

theorem step_connect_of_lt {s : ChatServer α}
    (h : s.service.activeConnections < CHAT_MAX_CONNECTIONS) (r : StreamRequest) :
    step lib s (.connect r) = some (s.opened r) := by
  simp only [step, stream_of_lt h]; rfl

theorem step_disconnect {s : ChatServer α} {c : Connection} (h : c ∈ s.live) :
    step lib s (.disconnect c) = some (s.closed c) := if_pos h

/-! ### The invariant -/

/-- The `Subject` of `c` is the one that `streamMap` holds under the key of `c`. -/
def Registered (s : ChatServer α) (c : Connection) : Prop :=
  s.service.streamMap.lookup c.key = some c.subject

/-- The `Subject` of `c` was completed. -/
def Completed (s : ChatServer α) (c : Connection) : Prop :=
  ∃ sub, s.service.subjects[c.subject]? = some sub ∧ sub.isStopped = true

/-- The payloads that the message stream of `c` has emitted so far. -/
def received (s : ChatServer α) (c : Connection) : List α :=
  ((s.service.subjects[c.subject]?).map Subject.emitted).getD []

structure Consistent (s : ChatServer α) : Prop where
  registered_live : ∀ k ref, s.service.streamMap.lookup k = some ref →
    ∃ c ∈ s.live, c.subject = ref ∧ c.key = k
  registered_open : ∀ k ref, s.service.streamMap.lookup k = some ref →
    ∃ sub, s.service.subjects[ref]? = some sub ∧ sub.isStopped = false ∧ sub.observed = true
  live_lt : ∀ c ∈ s.live, c.subject < s.service.subjects.length
  live_nodup : (s.live.map Connection.subject).Nodup
  live_ne : ∀ c ∈ s.live, c.uuid ≠ "" ∧ c.sessionId ≠ ""
  live_le : s.live.length ≤ s.service.activeConnections
  active_le : s.service.activeConnections ≤ CHAT_MAX_CONNECTIONS

namespace Consistent

variable {s t : ChatServer α}

theorem eq_of_subject (h : Consistent s) {c d : Connection} (hc : c ∈ s.live) (hd : d ∈ s.live)
    (heq : c.subject = d.subject) : c = d :=
  List.inj_on_of_nodup_map h.live_nodup hc hd heq

/-- No two keys lead to the same `Subject`. -/
theorem eq_of_lookup (h : Consistent s) {k k' : String} {ref : ℕ}
    (hk : s.service.streamMap.lookup k = some ref)
    (hk' : s.service.streamMap.lookup k' = some ref) : k = k' := by
  obtain ⟨c, hc, hcs, rfl⟩ := h.registered_live k ref hk
  obtain ⟨d, hd, hds, rfl⟩ := h.registered_live k' ref hk'
  rw [h.eq_of_subject hc hd (hcs.trans hds.symm)]

theorem opened (h : Consistent s) (hlt : s.service.activeConnections < CHAT_MAX_CONNECTIONS)
    (r : StreamRequest) : Consistent (s.opened r) where
  registered_live := by
    intro k ref hk
    simp only [ChatServer.opened] at hk ⊢
    by_cases hkey : k = streamKey r.targetUuid r.sessionId
    · subst hkey
      rw [AList.lookup_insert] at hk
      cases hk
      exact ⟨_, List.mem_append_right _ (List.mem_singleton_self _), rfl, rfl⟩
    · rw [AList.lookup_insert_ne hkey] at hk
      obtain ⟨c, hc, hcs, hck⟩ := h.registered_live k ref hk
      exact ⟨c, List.mem_append_left _ hc, hcs, hck⟩
  registered_open := by
    intro k ref hk
    simp only [ChatServer.opened] at hk ⊢
    by_cases hkey : k = streamKey r.targetUuid r.sessionId
    · subst hkey
      rw [AList.lookup_insert] at hk
      cases hk
      exact ⟨_, List.getElem?_concat_length, rfl, rfl⟩
    · rw [AList.lookup_insert_ne hkey] at hk
      obtain ⟨sub, hsub, hopen⟩ := h.registered_open k ref hk
      have hlen := (List.getElem?_eq_some_iff.1 hsub).1
      exact ⟨sub, by rw [List.getElem?_append_left hlen, hsub], hopen⟩
  live_lt := by
    intro c hc
    simp only [ChatServer.opened, List.length_append, List.length_singleton] at hc ⊢
    rcases List.mem_append.1 hc with hc | hc
    · have := h.live_lt c hc; omega
    · rw [List.mem_singleton.1 hc]; simp
  live_nodup := by
    have hnew : s.service.subjects.length ∉ s.live.map Connection.subject := by
      intro hmem
      obtain ⟨c, hc, heq⟩ := List.mem_map.1 hmem
      have := h.live_lt c hc
      omega
    simp only [ChatServer.opened, List.map_append, List.map_cons, List.map_nil]
    exact List.nodup_append.2 ⟨h.live_nodup, List.nodup_singleton _, by
      intro a ha b hb
      rw [List.mem_singleton.1 hb]
      rintro rfl
      exact hnew ha⟩
  live_ne := by
    intro c hc
    rcases List.mem_append.1 hc with hc | hc
    · exact h.live_ne c hc
    · rw [List.mem_singleton.1 hc]
      exact ⟨r.targetUuid_ne, r.sessionId_ne⟩
  live_le := by
    have := h.live_le
    simp only [ChatServer.opened, List.length_append, List.length_singleton]
    omega
  active_le := hlt

end Consistent

/-! ### The end of a connection -/

namespace ChatServer

variable {s : ChatServer α} {c : Connection}

theorem closed_of_lookup {ref : ℕ} (h : s.service.streamMap.lookup c.key = some ref) :
    s.closed c =
      { s with
        service :=
          { streamMap := s.service.streamMap.erase c.key
            activeConnections := s.service.activeConnections - 1
            subjects :=
              (s.service.subjects.modify c.subject Subject.unsubscribe).modify ref
                Subject.complete }
        live := s.live.erase c } := by
  rw [closed, ChatService.removeClient_of_lookup (s := s.service.unsubscribe c.subject) h]
  rfl

theorem closed_of_lookup_none (h : s.service.streamMap.lookup c.key = none) :
    s.closed c =
      { s with service := s.service.unsubscribe c.subject, live := s.live.erase c } := by
  rw [closed, ChatService.removeClient_of_lookup_none (s := s.service.unsubscribe c.subject) h]

@[simp] theorem closed_live : (s.closed c).live = s.live.erase c := rfl

/-- Exactly the key of the closing connection leaves the map. -/
theorem closed_lookup (k : String) :
    (s.closed c).service.streamMap.lookup k =
      if k = c.key then none else s.service.streamMap.lookup k := by
  cases h : s.service.streamMap.lookup c.key with
  | none =>
    rw [closed_of_lookup_none h]
    split_ifs with hk
    · rw [hk]; exact h
    · rfl
  | some ref =>
    rw [closed_of_lookup h]
    split_ifs with hk
    · rw [hk]; exact AList.lookup_erase _ _
    · exact AList.lookup_erase_ne hk

/-- A `Subject` that is neither the closing connection's nor the one registered under its key
stays as it was. -/
theorem closed_subject {ref : ℕ} (hne : ref ≠ c.subject)
    (hreg : s.service.streamMap.lookup c.key ≠ some ref) :
    (s.closed c).service.subjects[ref]? = s.service.subjects[ref]? := by
  cases h : s.service.streamMap.lookup c.key with
  | none =>
    rw [closed_of_lookup_none h]
    exact List.getElem?_modify_ne _ _ hne.symm
  | some ref' =>
    have hne' : ref' ≠ ref := fun heq => hreg (by rw [h, heq])
    rw [closed_of_lookup h]
    simp only [List.getElem?_modify_ne _ _ hne', List.getElem?_modify_ne _ _ hne.symm]

theorem closed_subjects_length :
    (s.closed c).service.subjects.length = s.service.subjects.length := by
  cases h : s.service.streamMap.lookup c.key with
  | none => rw [closed_of_lookup_none h]; exact List.length_modify _ _ _
  | some ref => rw [closed_of_lookup h]; simp

theorem closed_active_of_lookup {ref : ℕ} (h : s.service.streamMap.lookup c.key = some ref) :
    (s.closed c).service.activeConnections = s.service.activeConnections - 1 := by
  rw [closed_of_lookup h]

theorem closed_active_of_lookup_none (h : s.service.streamMap.lookup c.key = none) :
    (s.closed c).service.activeConnections = s.service.activeConnections := by
  rw [closed_of_lookup_none h]
  rfl

end ChatServer

namespace Consistent

variable {s t : ChatServer α}

theorem closed (h : Consistent s) {c : Connection} (hc : c ∈ s.live) :
    Consistent (s.closed c) where
  registered_live := by
    intro k ref hk
    rw [ChatServer.closed_lookup] at hk
    split_ifs at hk with hkey
    obtain ⟨d, hd, hds, rfl⟩ := h.registered_live k ref hk
    have hdc : d ≠ c := by rintro rfl; exact hkey rfl
    exact ⟨d, (List.mem_erase_of_ne hdc).2 hd, hds, rfl⟩
  registered_open := by
    intro k ref hk
    rw [ChatServer.closed_lookup] at hk
    split_ifs at hk with hkey
    have hreg : s.service.streamMap.lookup c.key ≠ some ref :=
      fun hck => hkey (h.eq_of_lookup hk hck)
    have hne : ref ≠ c.subject := by
      obtain ⟨d, hd, rfl, rfl⟩ := h.registered_live k ref hk
      intro heq
      exact hkey (by rw [h.eq_of_subject hd hc heq])
    rw [ChatServer.closed_subject hne hreg]
    exact h.registered_open k ref hk
  live_lt := by
    intro d hd
    rw [ChatServer.closed_subjects_length]
    exact h.live_lt d (List.mem_of_mem_erase hd)
  live_nodup := h.live_nodup.sublist (List.erase_sublist.map _)
  live_ne := fun d hd => h.live_ne d (List.mem_of_mem_erase hd)
  live_le := by
    have hle := h.live_le
    rw [ChatServer.closed_live, List.length_erase_of_mem hc]
    cases hk : s.service.streamMap.lookup c.key with
    | none => rw [ChatServer.closed_active_of_lookup_none hk]; omega
    | some ref => rw [ChatServer.closed_active_of_lookup hk]; omega
  active_le := by
    have hle := h.active_le
    cases hk : s.service.streamMap.lookup c.key with
    | none => rw [ChatServer.closed_active_of_lookup_none hk]; exact hle
    | some ref => rw [ChatServer.closed_active_of_lookup hk]; omega

/-- A change of the subjects that neither completes nor unsubscribes any. -/
theorem of_subjects (h : Consistent s) {f : Subject α → Subject α} (ref : ℕ)
    (hs : ∀ sub, (f sub).isStopped = sub.isStopped) (ho : ∀ sub, (f sub).observed = sub.observed) :
    Consistent { s with
      service := { s.service with subjects := s.service.subjects.modify ref f } } where
  registered_live := h.registered_live
  registered_open := by
    intro k ref' hk
    obtain ⟨sub, hsub, hopen⟩ := h.registered_open k ref' hk
    by_cases heq : ref = ref'
    · subst heq
      exact ⟨f sub, by simp [hsub], by rw [hs, ho]; exact hopen⟩
    · exact ⟨sub, by simp [List.getElem?_modify_ne _ _ heq, hsub], hopen⟩
  live_lt := by simpa using h.live_lt
  live_nodup := h.live_nodup
  live_ne := h.live_ne
  live_le := h.live_le
  active_le := h.active_le

theorem routed (h : Consistent s) (parse : String → Option α) (channel message : String) :
    Consistent { s with service := s.service.routeMessageToUser parse channel message } := by
  rcases s.service.route_cases parse channel message with heq | ⟨ref, payload, -, -, heq⟩
  · rw [heq]; exact h
  · rw [heq]
    exact h.of_subjects ref (Subject.isStopped_next payload) (Subject.observed_next payload)

theorem step (h : Consistent s) {e : Event} (hs : Chat.step lib s e = some t) : Consistent t := by
  rcases step_cases lib hs with ⟨r, -, hlt, rfl⟩ | ⟨r, -, -, rfl⟩ | ⟨c, -, hc, rfl⟩ |
    ⟨dto, env, -, rfl⟩ | ⟨channel, message, -, rfl⟩
  · exact h.opened hlt r
  · exact h
  · exact h.closed hc
  · exact ⟨h.1, h.2, h.3, h.4, h.5, h.6, h.7⟩
  · exact h.routed lib.parse channel message

end Consistent

theorem consistent_init : Consistent (ChatServer.init : ChatServer α) where
  registered_live := by intro k ref hk; cases hk
  registered_open := by intro k ref hk; cases hk
  live_lt := by intro c hc; cases hc
  live_nodup := List.nodup_nil
  live_ne := by intro c hc; cases hc
  live_le := Nat.le_refl 0
  active_le := Nat.zero_le _

/-- The registry is consistent after every run. -/
theorem consistent_of_reachable {s : ChatServer α}
    (h : Reachable (step lib) ChatServer.init s) : Consistent s :=
  invariant (fun _ _ _ hs hstep => hs.step lib hstep) consistent_init h

end ProtostarNest.Chat
