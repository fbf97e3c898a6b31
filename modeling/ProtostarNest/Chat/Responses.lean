import ProtostarNest.Chat.Delivery

/-!
# The responses of `GET stream/:sessionId`

`stream` answers with `merge(initEvent, heartbeatEvent, messageStream)`.  The interval of the
heartbeats never completes, so that the response stays open when its `Subject` is completed, until
the client leaves.

* `MessageEvent`, `Responses`, `Responses.step`: the server with what it has written to its clients;
* `brings`: what a label adds to the response of a connection;
* `beats`: the heartbeats that a list of labels brings to a connection until it closes;
* `Writes`: what a run writes to one connection;
* `written_of_run`, and `silenced_of_run`: a stream that has lost its place in `streamMap` gets
  heartbeats and nothing else, for as long as it is open.
-/

namespace ProtostarNest.Chat

open Transition

/-- The bodies that `stream` itself writes. -/
structure Notice where
  type : String
  uuid : String
  sessionId : String
  message : String
  timestamp : Option String
  deriving DecidableEq

inductive MessageEvent (α : Type*)
  | notice (data : Notice)
  | payload (data : α)
  deriving DecidableEq

def initEvent (c : Connection) : Notice where
  type := "init"
  uuid := c.uuid
  sessionId := c.sessionId
  message := "Connection established"
  timestamp := none

def heartbeatEvent (c : Connection) (timestamp : String) : Notice where
  type := "heartbeat"
  uuid := c.uuid
  sessionId := c.sessionId
  message := "Heartbeat"
  timestamp := some timestamp

variable {α : Type*} (lib : External α)

namespace MessageEvent

def notice? : MessageEvent α → Option Notice
  | .notice data => some data
  | .payload _ => none

def payload? : MessageEvent α → Option α
  | .notice _ => none
  | .payload data => some data

end MessageEvent

/-- The server with the bodies written to each connection so far. -/
structure Responses (α : Type*) where
  server : ChatServer α
  written : Connection → List (MessageEvent α)

namespace Responses

/-- A heartbeat of one connection, or an event of the server. -/
inductive Label
  | tick (c : Connection) (timestamp : String)
  | event (e : Event)

def boot : Responses α := ⟨ChatServer.init, fun _ => []⟩

/-- What the stream of `c` emits between two states of the server. -/
def emissions (s t : ChatServer α) (c : Connection) : List (MessageEvent α) :=
  ((received t c).drop (received s c).length).map .payload

/-- What is written to `c` in a step of the server to `t`. -/
def writes (s : Responses α) (t : ChatServer α) (e : Event) (c : Connection) :
    List (MessageEvent α) :=
  if c ∈ s.server.live then s.written c ++ emissions s.server t c
  else
    match e with
    | .connect r =>
        if (stream s.server.service r).1 = .ok c then [.notice (initEvent c)] else s.written c
    | _ => s.written c

def step (s : Responses α) : Label → Option (Responses α)
  | .tick c timestamp =>
      if c ∈ s.server.live then
        some { s with
          written :=
            Function.update s.written c
              (s.written c ++ [.notice (heartbeatEvent c timestamp)]) }
      else none
  | .event e => (Chat.step lib s.server e).map fun t => ⟨t, s.writes t e⟩

instance (s : ChatServer α) (c : Connection) : Decidable (Registered s c) :=
  inferInstanceAs (Decidable (_ = _))

/-- What a label adds to the response of `c`: its heartbeat, or the message on a channel whose last
part is its key, as long as `streamMap` leads to it. -/
def brings (c : Connection) (s : Responses α) : Label → List (MessageEvent α)
  | .tick d timestamp => if d = c then [.notice (heartbeatEvent c timestamp)] else []
  | .event (.pmessage channel message) =>
      if ChatService.channelKey channel = some c.key ∧ Registered s.server c then
        (lib.parse message).toList.map .payload
      else []
  | .event (.connect _) => []
  | .event (.disconnect _) => []
  | .event (.dispatchJob _ _) => []

/-- The heartbeats of `c` before its disconnect. -/
def beats (c : Connection) : List Label → List Notice
  | [] => []
  | .tick d timestamp :: ls => (if d = c then [heartbeatEvent c timestamp] else []) ++ beats c ls
  | .event (.disconnect d) :: ls => if d = c then [] else beats c ls
  | .event (.connect _) :: ls => beats c ls
  | .event (.dispatchJob _ _) :: ls => beats c ls
  | .event (.pmessage _ _) :: ls => beats c ls

end Responses

/-! ### One step -/

section Step

variable {lib} {s t : ChatServer α} {e : Event} {c d : Connection}

/-- No message finds a stream that is not registered, and it does not come back to its place. -/
theorem unregistered_step (hs : Consistent s) (hc : c ∈ s.live) (hreg : ¬ Registered s c)
    (h : step lib s e = some t) : ¬ Registered t c ∧ received t c = received s c := by
  rcases step_cases lib h with ⟨r, rfl, -, rfl⟩ | ⟨r, rfl, -, rfl⟩ | ⟨d, rfl, -, rfl⟩ |
    ⟨dto, env, rfl, rfl⟩ | ⟨channel, message, rfl, rfl⟩
  · refine ⟨fun hlookup => ?_, received_opened r (hs.live_lt c hc)⟩
    have hlookup' : (s.service.streamMap.insert (streamKey r.targetUuid r.sessionId)
      s.service.subjects.length).lookup c.key = some c.subject := hlookup
    by_cases hkey : c.key = streamKey r.targetUuid r.sessionId
    · rw [hkey, AList.lookup_insert] at hlookup'
      have hlt := hs.live_lt c hc
      have heq := Option.some.inj hlookup'
      omega
    · rw [AList.lookup_insert_ne hkey] at hlookup'
      exact hreg hlookup'
  · exact ⟨hreg, rfl⟩
  · refine ⟨fun hlookup => ?_, received_closed⟩
    rw [Registered, ChatServer.closed_lookup] at hlookup
    split_ifs at hlookup
    exact hreg hlookup
  · exact ⟨hreg, rfl⟩
  · constructor
    · rw [Registered]
      simp only [routed_streamMap]
      exact hreg
    · rcases s.service.route_cases lib.parse channel message with heq | ⟨ref, payload, ht, -, heq⟩
      · rw [heq]
      · obtain ⟨k, -, hlookup⟩ := ChatService.routeTarget_eq_some ht
        obtain ⟨d, hd, rfl, rfl⟩ := hs.registered_live _ _ hlookup
        have hne : d.subject ≠ c.subject := by
          intro hsubject
          obtain rfl := hs.eq_of_subject hd hc hsubject
          exact hreg hlookup
        simp only [heq, received, List.getElem?_modify_ne _ _ hne]

/-- A live connection stays live unless it closes. -/
theorem live_or_gone (hs : Consistent s) (hc : c ∈ s.live) (h : step lib s e = some t) :
    (e = .disconnect c ∧ Gone t c) ∨ (e ≠ .disconnect c ∧ c ∈ t.live) := by
  rcases step_cases lib h with ⟨r, rfl, -, rfl⟩ | ⟨r, rfl, -, rfl⟩ | ⟨d, rfl, hd, rfl⟩ |
    ⟨dto, env, rfl, rfl⟩ | ⟨channel, message, rfl, rfl⟩
  · exact Or.inr ⟨nofun, List.mem_append_left _ hc⟩
  · exact Or.inr ⟨nofun, hc⟩
  · by_cases hdc : d = c
    · subst hdc
      have hnodup : s.live.Nodup := hs.live_nodup.of_map _
      refine Or.inl ⟨rfl, ?_, fun d' hd' heq => ?_⟩
      · rw [ChatServer.closed_subjects_length]
        exact hs.live_lt d hd
      · obtain ⟨hne, hlive⟩ := hnodup.mem_erase_iff.1 hd'
        exact hne (hs.eq_of_subject hlive hd heq)
    · exact Or.inr ⟨fun heq => hdc (by cases heq; rfl), (List.mem_erase_of_ne (Ne.symm hdc)).2 hc⟩
  · exact Or.inr ⟨nofun, hc⟩
  · exact Or.inr ⟨nofun, hc⟩

/-- The connection that `stream` accepts is new. -/
theorem subject_of_stream {s : ChatService α} {r : StreamRequest}
    (h : (stream s r).1 = .ok c) : c.subject = s.subjects.length := by
  rcases Nat.lt_or_ge s.activeConnections CHAT_MAX_CONNECTIONS with hlt | hge
  · rw [stream_of_lt hlt] at h
    cases h
    rfl
  · rw [stream_of_ge hge] at h
    cases h

end Step

/-! ### One response -/

/-- Between the two states the response to `c` has got `added`: what its stream emits, and the
heartbeats. -/
structure Writes (c : Connection) (ls : List Responses.Label) (s t : Responses α)
    (added : List (MessageEvent α)) : Prop where
  written : t.written c = s.written c ++ added
  payloads : received t.server c = received s.server c ++ added.filterMap MessageEvent.payload?
  notices : added.filterMap MessageEvent.notice? = Responses.beats c ls

namespace Responses

section Response

variable {lib} {s t u : Responses α} {l : Label} {ls : List Label} {c : Connection}

theorem consistent_step (hs : Consistent s.server) (h : step lib s l = some t) :
    Consistent t.server := by
  cases l with
  | tick d timestamp =>
    simp only [step] at h
    split_ifs at h
    cases h
    exact hs
  | event e =>
    obtain ⟨t', ht', rfl⟩ := Option.map_eq_some_iff.1 h
    exact hs.step lib ht'

theorem consistent_run (h : run (step lib) boot ls = some s) : Consistent s.server :=
  invariant (fun _ _ _ hs hstep => consistent_step hs hstep) consistent_init ⟨ls, h⟩

theorem beats_cons (hl : l ≠ .event (.disconnect c)) (ls : List Label) :
    beats c (l :: ls) = beats c [l] ++ beats c ls := by
  cases l with
  | tick d timestamp => simp only [beats, List.append_nil]
  | event e =>
    cases e with
    | disconnect d =>
      have hd : d ≠ c := by rintro rfl; exact hl rfl
      simp only [beats, if_neg hd, List.nil_append]
    | _ => rfl

theorem beats_event (e : Event) : beats c [.event e] = [] := by
  cases e with
  | disconnect d => exact ite_self _
  | _ => rfl

/-- What the stream of a live connection emits in a step. -/
theorem received_step {t : ChatServer α} {e : Event} (hs : Consistent s.server)
    (hc : c ∈ s.server.live) (h : Chat.step lib s.server e = some t) :
    ∃ payloads, received t c = received s.server c ++ payloads ∧
      brings lib c s (.event e) = payloads.map .payload := by
  rcases step_cases lib h with ⟨r, rfl, -, rfl⟩ | ⟨r, rfl, -, rfl⟩ | ⟨d, rfl, -, rfl⟩ |
    ⟨dto, env, rfl, rfl⟩ | ⟨channel, message, rfl, -⟩
  · exact ⟨[], by rw [received_opened r (hs.live_lt c hc), List.append_nil], rfl⟩
  · exact ⟨[], (List.append_nil _).symm, rfl⟩
  · exact ⟨[], by rw [received_closed, List.append_nil], rfl⟩
  · exact ⟨[], (List.append_nil _).symm, rfl⟩
  · by_cases hfor : ChatService.channelKey channel = some c.key ∧ Registered s.server c
    · refine ⟨(lib.parse message).toList, ?_, if_pos hfor⟩
      cases hp : lib.parse message with
      | some payload => exact received_of_registered lib hs hfor.2 hfor.1 hp h
      | none =>
        cases Option.some.inj h
        rw [Option.toList_none, List.append_nil, ChatService.route_of_parse_none hp]
    · refine ⟨[], ?_, if_neg hfor⟩
      rw [List.append_nil]
      by_cases hreg : Registered s.server c
      · exact received_of_channelKey_ne lib hs hc (fun hkey => hfor ⟨hkey, hreg⟩) h
      · exact (unregistered_step hs hc hreg h).2

theorem emissions_eq {s t : ChatServer α} {payloads : List α}
    (h : received t c = received s c ++ payloads) :
    emissions s t c = payloads.map .payload := by
  rw [emissions, h, List.drop_left]

theorem filterMap_payload (payloads : List α) :
    (payloads.map MessageEvent.payload).filterMap MessageEvent.payload? = payloads := by
  rw [List.filterMap_map]
  exact List.filterMap_some

theorem filterMap_notice (payloads : List α) :
    (payloads.map MessageEvent.payload).filterMap MessageEvent.notice? = [] := by
  rw [List.filterMap_map]
  exact List.filterMap_eq_nil_iff.2 fun _ _ => rfl

theorem writes_step (hs : Consistent s.server) (hc : c ∈ s.server.live)
    (h : step lib s l = some t) :
    Writes c [l] s t (brings lib c s l) ∧
      ((l = .event (.disconnect c) ∧ Gone t.server c) ∨
        (l ≠ .event (.disconnect c) ∧ c ∈ t.server.live)) := by
  cases l with
  | tick d timestamp =>
    simp only [step] at h
    split_ifs at h with hd
    cases h
    refine ⟨?_, Or.inr ⟨nofun, hc⟩⟩
    by_cases hdc : d = c
    · subst hdc
      rw [brings, if_pos rfl]
      exact ⟨Function.update_self .., (List.append_nil _).symm,
        by simp [beats, MessageEvent.notice?]⟩
    · rw [brings, if_neg hdc]
      refine ⟨?_, (List.append_nil _).symm, by simp [beats, hdc]⟩
      rw [List.append_nil]
      exact Function.update_of_ne (Ne.symm hdc) _ _
  | event e =>
    obtain ⟨t', ht', rfl⟩ := Option.map_eq_some_iff.1 h
    obtain ⟨payloads, hrecv, hbrings⟩ := received_step hs hc ht'
    rw [hbrings]
    refine ⟨⟨?_, ?_, ?_⟩, ?_⟩
    · rw [← emissions_eq hrecv]
      exact if_pos hc
    · rw [filterMap_payload]
      exact hrecv
    · rw [filterMap_notice, beats_event]
    · rcases live_or_gone hs hc ht' with ⟨rfl, hgone⟩ | ⟨hne, hlive⟩
      · exact Or.inl ⟨rfl, hgone⟩
      · exact Or.inr ⟨fun heq => hne (Label.event.inj heq), hlive⟩

/-- Nothing is written after the end. -/
theorem written_gone (hs : Consistent s.server) (hg : Gone s.server c) (h : step lib s l = some t) :
    Gone t.server c ∧ t.written c = s.written c ∧ received t.server c = received s.server c := by
  have hdead : c ∉ s.server.live := fun hc => hg.ne c hc rfl
  cases l with
  | tick d timestamp =>
    simp only [step] at h
    split_ifs at h with hd
    cases h
    have hdc : c ≠ d := by rintro rfl; exact hdead hd
    exact ⟨hg, Function.update_of_ne hdc _ _, rfl⟩
  | event e =>
    obtain ⟨t', ht', rfl⟩ := Option.map_eq_some_iff.1 h
    obtain ⟨hgone, hrecv⟩ := gone_step hs hg ht'
    refine ⟨hgone, ?_, hrecv⟩
    simp only [writes, if_neg hdead]
    cases e with
    | connect r =>
      refine if_neg fun hok => ?_
      have hnew := subject_of_stream hok
      have hlt := hg.lt
      omega
    | _ => rfl

theorem written_gone_run (hs : Consistent s.server) (hg : Gone s.server c)
    (h : run (step lib) s ls = some t) :
    t.written c = s.written c ∧ received t.server c = received s.server c := by
  induction ls generalizing s with
  | nil => cases h; exact ⟨rfl, rfl⟩
  | cons l ls ih =>
    obtain ⟨u, hu, hrun⟩ := (run_cons_eq_some _).1 h
    obtain ⟨hgone, hwritten, hrecv⟩ := written_gone hs hg hu
    obtain ⟨hwritten', hrecv'⟩ := ih (consistent_step hs hu) hgone hrun
    exact ⟨hwritten'.trans hwritten, hrecv'.trans hrecv⟩

theorem writes_run (hs : Consistent s.server) (hc : c ∈ s.server.live)
    (h : run (step lib) s ls = some t) : ∃ added, Writes c ls s t added := by
  induction ls generalizing s with
  | nil =>
    cases h
    exact ⟨[], (List.append_nil _).symm, (List.append_nil _).symm, rfl⟩
  | cons l ls ih =>
    obtain ⟨u, hu, hrun⟩ := (run_cons_eq_some _).1 h
    have hs' := consistent_step hs hu
    obtain ⟨⟨hwritten, hpayloads, hnotices⟩, hnext⟩ := writes_step hs hc hu
    rcases hnext with ⟨rfl, hgone⟩ | ⟨hopen, hlive⟩
    · obtain ⟨hwritten', hrecv⟩ := written_gone_run hs' hgone hrun
      refine ⟨_, hwritten'.trans hwritten, hrecv.trans hpayloads, hnotices.trans ?_⟩
      simp only [beats, if_true]
    · obtain ⟨added', hwritten', hpayloads', hnotices'⟩ := ih hs' hlive hrun
      refine ⟨brings lib c s l ++ added', ?_, ?_, ?_⟩
      · rw [hwritten', hwritten, List.append_assoc]
      · rw [hpayloads', hpayloads, List.filterMap_append, List.append_assoc]
      · rw [List.filterMap_append, hnotices, hnotices', ← beats_cons hopen ls]

/-- A label adds to the response of a connection that was accepted what it brings: nothing, once
the client has left. -/
theorem written_step (hs : Consistent s.server) (hc : c ∈ s.server.live ∨ Gone s.server c)
    (h : step lib s l = some t) :
    t.written c = s.written c ++ brings lib c s l ∧ (c ∈ t.server.live ∨ Gone t.server c) := by
  rcases hc with hc | hg
  · obtain ⟨hwrites, hnext⟩ := writes_step hs hc h
    exact ⟨hwrites.written, hnext.symm.imp And.right And.right⟩
  · obtain ⟨hgone, hwritten, -⟩ := written_gone hs hg h
    refine ⟨?_, Or.inr hgone⟩
    have hdead : c ∉ s.server.live := fun hc => hg.ne c hc rfl
    have hreg : ¬ Registered s.server c := fun hlookup => by
      obtain ⟨d, hd, hsubject, -⟩ := hs.registered_live _ _ hlookup
      exact hg.ne d hd hsubject
    suffices hnone : brings lib c s l = [] by rw [hnone, List.append_nil, hwritten]
    cases l with
    | tick d timestamp =>
      refine if_neg ?_
      rintro rfl
      simp only [step, if_neg hdead] at h
      cases h
    | event e =>
      cases e with
      | pmessage channel message => exact if_neg fun hfor => hreg hfor.2
      | _ => rfl

theorem written_step_of_run (hs : Consistent s.server) (hc : c ∈ s.server.live)
    (hu : run (step lib) s ls = some u) (ht : step lib u l = some t) :
    t.written c = u.written c ++ brings lib c u l := by
  have hkeep : ∀ (s : Responses α) (l : Label) (t : Responses α),
      (Consistent s.server ∧ (c ∈ s.server.live ∨ Gone s.server c)) → step lib s l = some t →
        Consistent t.server ∧ (c ∈ t.server.live ∨ Gone t.server c) := fun s l t hs h =>
    ⟨consistent_step hs.1 h, (written_step hs.1 hs.2 h).2⟩
  obtain ⟨hconsistent, hopen⟩ := invariant hkeep ⟨hs, Or.inl hc⟩ ⟨ls, hu⟩
  exact (written_step hconsistent hopen ht).1

/-- A stream that is out of `streamMap` stays so, and silent. -/
theorem unregistered_run (hs : Consistent s.server) (hc : c ∈ s.server.live)
    (hreg : ¬ Registered s.server c) (h : run (step lib) s ls = some t) :
    received t.server c = received s.server c ∧
      (.event (.disconnect c) ∉ ls → c ∈ t.server.live ∧ ¬ Registered t.server c) := by
  induction ls generalizing s with
  | nil => cases h; exact ⟨rfl, fun _ => ⟨hc, hreg⟩⟩
  | cons l ls ih =>
    obtain ⟨u, hu, hrun⟩ := (run_cons_eq_some _).1 h
    have hs' := consistent_step hs hu
    have hstep : ¬ Registered u.server c ∧ received u.server c = received s.server c := by
      cases l with
      | tick d timestamp =>
        simp only [step] at hu
        split_ifs at hu
        cases hu
        exact ⟨hreg, rfl⟩
      | event e =>
        obtain ⟨u', hu', rfl⟩ := Option.map_eq_some_iff.1 hu
        exact unregistered_step hs hc hreg hu'
    obtain ⟨hreg', hrecv⟩ := hstep
    obtain ⟨-, ⟨rfl, hgone⟩ | ⟨hopen, hlive⟩⟩ := writes_step hs hc hu
    · exact ⟨(written_gone_run hs' hgone hrun).2.trans hrecv,
        fun hno => absurd List.mem_cons_self hno⟩
    · obtain ⟨hrecv', hstays⟩ := ih hs' hlive hreg' hrun
      exact ⟨hrecv'.trans hrecv, fun hno => hstays fun hmem => hno (List.mem_cons_of_mem _ hmem)⟩

theorem eq_map_notice {added : List (MessageEvent α)}
    (h : added.filterMap MessageEvent.payload? = []) :
    added = (added.filterMap MessageEvent.notice?).map .notice := by
  induction added with
  | nil => rfl
  | cons event added ih =>
    cases event with
    | notice data => exact congrArg (_ :: ·) (ih h)
    | payload data => cases h

end Response

end Responses

/-! ### Runs -/

open Responses

/-- **A response begins with the init event, and each later label adds its heartbeat or its
message**, so that it continues with the payloads that its stream emits and its heartbeats, until
the client leaves. -/
theorem written_of_run (pre post : List Responses.Label) (l : Responses.Label)
    (s u t : Responses α) (hs : run (Responses.step lib) boot pre = some s)
    (hu : Responses.step lib s l = some u) (ht : run (Responses.step lib) u post = some t)
    (c : Connection) (hnew : c ∉ s.server.live) (hc : c ∈ u.server.live) :
    u.written c = [.notice (initEvent c)] ∧
      (∀ ls l' ls' v v', post = ls ++ l' :: ls' → run (Responses.step lib) u ls = some v →
        Responses.step lib v l' = some v' → v'.written c = v.written c ++ brings lib c v l') ∧
      ∃ added, t.written c = .notice (initEvent c) :: added ∧
        added.filterMap MessageEvent.payload? = received t.server c ∧
        added.filterMap MessageEvent.notice? = beats c post := by
  have hcons := consistent_step (consistent_run hs) hu
  obtain ⟨added, hwritten, hpayloads, hnotices⟩ := writes_run hcons hc ht
  have hopened : u.written c = [.notice (initEvent c)] ∧ received u.server c = [] := by
    cases l with
    | tick d timestamp =>
      simp only [Responses.step] at hu
      split_ifs at hu
      cases hu
      exact absurd hc hnew
    | event e =>
      obtain ⟨u', hu', rfl⟩ := Option.map_eq_some_iff.1 hu
      refine ⟨?_, received_of_opened hu' hnew hc⟩
      simp only [writes, if_neg hnew]
      rcases step_cases lib hu' with ⟨r, rfl, hlt, rfl⟩ | ⟨r, rfl, -, rfl⟩ | ⟨d, rfl, -, rfl⟩ |
        ⟨dto, env, rfl, rfl⟩ | ⟨channel, message, rfl, rfl⟩
      · obtain rfl := List.mem_singleton.1 ((List.mem_append.1 hc).resolve_left hnew)
        simp only [stream_of_lt hlt, if_true]
      · exact absurd hc hnew
      · exact absurd (List.mem_of_mem_erase hc) hnew
      · exact absurd hc hnew
      · exact absurd hc hnew
  obtain ⟨hinit, hnone⟩ := hopened
  refine ⟨hinit, fun ls l' ls' v v' _ hv hv' => written_step_of_run hcons hc hv hv', added, ?_, ?_,
    hnotices⟩
  · rw [hwritten, hinit]
    rfl
  · rw [hpayloads, hnone, List.nil_append]

/-- **A stream that another connection has displaced from `streamMap` never speaks again**: its
response stays open until the client leaves, and gets nothing but heartbeats. -/
theorem silenced_of_run (pre post : List Responses.Label) (s t : Responses α)
    (hs : run (Responses.step lib) boot pre = some s)
    (ht : run (Responses.step lib) s post = some t) (c : Connection) (hc : c ∈ s.server.live)
    (hreg : ¬ Registered s.server c) :
    t.written c = s.written c ++ (beats c post).map .notice ∧
      (.event (.disconnect c) ∉ post → c ∈ t.server.live ∧ ¬ Registered t.server c) := by
  have hcons := consistent_run hs
  obtain ⟨added, hwritten, hpayloads, hnotices⟩ := writes_run hcons hc ht
  obtain ⟨hrecv, hstays⟩ := unregistered_run hcons hc hreg ht
  refine ⟨?_, hstays⟩
  have hnone : added.filterMap MessageEvent.payload? = [] := by
    rw [hrecv] at hpayloads
    exact List.self_eq_append_right.1 hpayloads
  rw [hwritten, ← hnotices, ← eq_map_notice hnone]

/-- A tab connects twice with its pair. -/
def twiceConnected : List Responses.Label :=
  [.event (.connect reconnectRequest), .event (.connect reconnectRequest)]

def firstTab : Connection := ⟨"visitor-1", "tab-1", 0⟩

/-- An answer for the pair, and a heartbeat of the first response. -/
def answeredTwice : List Responses.Label :=
  [.event (.pmessage "chat:stream:visitor-1-tab-1" "{}"), .tick firstTab "t1"]

theorem written_answeredTwice : ∃ s u t added,
    Responses.step emptyObject boot (.event (.connect reconnectRequest)) = some s ∧
      Responses.step emptyObject s (.event (.connect reconnectRequest)) = some u ∧
      run (Responses.step emptyObject) u answeredTwice = some t ∧
      t.written { firstTab with subject := 1 } =
        .notice (initEvent { firstTab with subject := 1 }) :: added ∧
      added.filterMap MessageEvent.payload? = [()] := by
  obtain ⟨-, -, added, hwritten, hpayloads, -⟩ := written_of_run emptyObject
    [.event (.connect reconnectRequest)] answeredTwice (.event (.connect reconnectRequest)) _ _ _
    rfl rfl rfl { firstTab with subject := 1 } (by decide) (by decide)
  exact ⟨_, _, _, added, rfl, rfl, rfl, hwritten, hpayloads⟩

theorem silenced_answeredTwice : ∃ s t,
    run (Responses.step emptyObject) boot twiceConnected = some s ∧
      run (Responses.step emptyObject) s answeredTwice = some t ∧
      t.written firstTab =
        [.notice (initEvent firstTab), .notice (heartbeatEvent firstTab "t1")] ∧
      firstTab ∈ t.server.live := by
  obtain ⟨hwritten, hstays⟩ := silenced_of_run emptyObject twiceConnected answeredTwice _ _ rfl rfl
    firstTab (by decide) (by decide)
  exact ⟨_, _, rfl, rfl, hwritten, (hstays (by simp [answeredTwice])).1⟩

end ProtostarNest.Chat
