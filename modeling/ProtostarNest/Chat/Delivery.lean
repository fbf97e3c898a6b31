import ProtostarNest.Chat.Isolation

/-!
# Delivery of the answers

As long as no two live connections share a key and no `:` occurs in keys or after `chat:stream:`,
each live connection is the one registered under its key, and a message goes to the connection
that its channel names.

* `Separate`: the condition on the connects and the messages of a run;
* `published`: the payloads that a list of events publishes for a connection until it closes;
* `live_step`, `gone_step`: what a step adds to the stream of a connection that is live, or gone;
* `delivered_of_meets`: every stream emits what was published for it, in that order.
-/

namespace ProtostarNest.Chat

open Transition

variable {α : Type*} (lib : External α)

/-- A connection that is accepted has a new key without `:`, and what follows `chat:stream:` in a
channel has no `:`. -/
def Separate (s : ChatServer α) : Event → Prop
  | .connect r => s.service.isOkayToConnect = true →
      (∀ d ∈ s.live, d.key ≠ streamKey r.targetUuid r.sessionId) ∧
        ':' ∉ (streamKey r.targetUuid r.sessionId).toList
  | .pmessage channel _ => ∃ k : String, ':' ∉ k.toList ∧ channel = "chat:stream:" ++ k
  | .disconnect _ => True
  | .dispatchJob _ _ => True

/-- The payloads of the messages on the channel of `c` before the disconnect of `c`. -/
def published (c : Connection) : List Event → List α
  | [] => []
  | .disconnect d :: es => if d = c then [] else published c es
  | .pmessage channel message :: es =>
      (if channel = streamChannel c.uuid c.sessionId then (lib.parse message).toList else []) ++
        published c es
  | .connect _ :: es => published c es
  | .dispatchJob _ _ :: es => published c es

/-! ### Channels -/

theorem channelKey_of_notMem {k : String} (hk : ':' ∉ k.toList) :
    ChatService.channelKey ("chat:stream:" ++ k) = some k := by
  have hchannel : ("chat:stream:" ++ k).toList = "chat:stream".toList ++ ':' :: k.toList := by
    rw [String.toList_append]; rfl
  rw [ChatService.channelKey, Separator.getLast?_split, hchannel, Separator.lastPiece_append_cons,
    Separator.lastPiece_of_notMem hk, String.ofList_toList]

theorem streamChannel_eq_iff {c : Connection} {k : String} :
    "chat:stream:" ++ k = streamChannel c.uuid c.sessionId ↔ k = c.key := by
  constructor
  · intro h
    have hlist := congrArg String.toList h
    rw [streamChannel, String.toList_append, String.toList_append] at hlist
    exact String.toList_injective (List.append_cancel_left hlist)
  · rintro rfl
    rfl

/-! ### Live and gone connections -/

/-- Each live connection is the one registered under its key. -/
def AllRegistered (s : ChatServer α) : Prop := ∀ c ∈ s.live, Registered s c

/-- `c` was a connection and is none any more. -/
structure Gone (s : ChatServer α) (c : Connection) : Prop where
  lt : c.subject < s.service.subjects.length
  ne : ∀ d ∈ s.live, d.subject ≠ c.subject

section Steps

variable {lib} {s t : ChatServer α} {e : Event} {c d : Connection}

theorem emitted_modify (l : List (Subject α)) (ref k : ℕ) {f : Subject α → Subject α}
    (hf : ∀ sub, (f sub).emitted = sub.emitted) :
    ((l.modify ref f)[k]?.map Subject.emitted) = l[k]?.map Subject.emitted := by
  by_cases hk : ref = k
  · subst hk
    rw [List.getElem?_modify_eq]
    cases l[ref]? with
    | none => rfl
    | some sub => exact congrArg some (hf sub)
  · rw [List.getElem?_modify_ne _ _ hk]

/-- The end of a connection emits nothing. -/
theorem received_closed : received (s.closed d) c = received s c := by
  unfold received
  cases h : s.service.streamMap.lookup d.key with
  | none =>
    rw [ChatServer.closed_of_lookup_none h]
    exact congrArg (Option.getD · []) (emitted_modify _ _ _ Subject.emitted_unsubscribe)
  | some ref =>
    rw [ChatServer.closed_of_lookup h]
    refine congrArg (Option.getD · []) ?_
    rw [emitted_modify _ _ _ Subject.emitted_complete]
    exact emitted_modify _ _ _ Subject.emitted_unsubscribe

theorem received_opened (r : StreamRequest) (hc : c.subject < s.service.subjects.length) :
    received (s.opened r) c = received s c := by
  simp only [received, ChatServer.opened, List.getElem?_append_left hc]

theorem AllRegistered.step (hs : Consistent s) (hreg : AllRegistered s) (he : Separate s e)
    (h : Chat.step lib s e = some t) : AllRegistered t := by
  rcases step_cases lib h with ⟨r, rfl, hlt, rfl⟩ | ⟨r, rfl, -, rfl⟩ | ⟨d, rfl, hd, rfl⟩ |
    ⟨dto, env, rfl, rfl⟩ | ⟨channel, message, rfl, rfl⟩
  · intro c hc
    rcases List.mem_append.1 hc with hc | hc
    · have hne : c.key ≠ streamKey r.targetUuid r.sessionId :=
        (he (decide_eq_true hlt)).1 c hc
      exact (AList.lookup_insert_ne hne).trans (hreg c hc)
    · rw [List.mem_singleton.1 hc]
      exact AList.lookup_insert _
  · exact hreg
  · intro c hc
    have hlive := List.mem_of_mem_erase hc
    have hne : c ≠ d := by
      rintro rfl
      have hnodup : s.live.Nodup := hs.live_nodup.of_map _
      exact (hnodup.mem_erase_iff.1 hc).1 rfl
    have hkey : c.key ≠ d.key := by
      intro heq
      have hc' : s.service.streamMap.lookup d.key = some c.subject := heq ▸ hreg c hlive
      exact hne (hs.eq_of_subject hlive hd (Option.some.inj (hc'.symm.trans (hreg d hd))))
    rw [Registered, ChatServer.closed_lookup, if_neg hkey]
    exact hreg c hlive
  · exact hreg
  · intro c hc
    rw [Registered]
    simp only [routed_streamMap]
    exact hreg c hc

/-- A message leaves the stream of a connection that is gone alone. -/
theorem Gone.received_routed (hs : Consistent s) (hg : Gone s c) {channel message : String}
    (h : step lib s (.pmessage channel message) = some t) : received t c = received s c := by
  cases Option.some.inj h
  rcases s.service.route_cases lib.parse channel message with heq | ⟨ref, payload, ht, -, heq⟩
  · rw [heq]
  · obtain ⟨k, -, hlookup⟩ := ChatService.routeTarget_eq_some ht
    obtain ⟨d, hd, rfl, -⟩ := hs.registered_live _ _ hlookup
    simp only [heq, received, List.getElem?_modify_ne _ _ (hg.ne d hd)]

/-- The stream of a connection that is gone stays as it is. -/
theorem gone_step (hs : Consistent s) (hg : Gone s c) (h : step lib s e = some t) :
    Gone t c ∧ received t c = received s c := by
  rcases step_cases lib h with ⟨r, rfl, -, rfl⟩ | ⟨r, rfl, -, rfl⟩ | ⟨d, rfl, -, rfl⟩ |
    ⟨dto, env, rfl, rfl⟩ | ⟨channel, message, rfl, rfl⟩
  · refine ⟨⟨?_, fun d hd => ?_⟩, received_opened r hg.lt⟩
    · have hlt := hg.lt
      simp only [ChatServer.opened, List.length_append, List.length_singleton]
      omega
    · rcases List.mem_append.1 hd with hd | hd
      · exact hg.ne d hd
      · rw [List.mem_singleton.1 hd]
        exact Nat.ne_of_gt hg.lt
  · exact ⟨hg, rfl⟩
  · refine ⟨⟨?_, fun d' hd' => hg.ne d' (List.mem_of_mem_erase hd')⟩, received_closed⟩
    rw [ChatServer.closed_subjects_length]
    exact hg.lt
  · exact ⟨⟨hg.lt, hg.ne⟩, rfl⟩
  · refine ⟨⟨?_, hg.ne⟩, hg.received_routed hs h⟩
    rcases s.service.route_cases lib.parse channel message with heq | ⟨ref, payload, -, -, heq⟩
    · rw [heq]
      exact hg.lt
    · rw [heq, List.length_modify]
      exact hg.lt

/-- A step adds the message of its event, if it is for the connection, to the stream of a live
connection, which stays live unless it closes. -/
theorem live_step (hs : Consistent s) (hreg : AllRegistered s) (hc : c ∈ s.live)
    (he : Separate s e) (h : step lib s e = some t) :
    received t c = received s c ++ published lib c [e] ∧
      ((e = .disconnect c ∧ Gone t c) ∨ (e ≠ .disconnect c ∧ c ∈ t.live)) := by
  rcases step_cases lib h with ⟨r, rfl, -, rfl⟩ | ⟨r, rfl, -, rfl⟩ | ⟨d, rfl, hd, rfl⟩ |
    ⟨dto, env, rfl, rfl⟩ | ⟨channel, message, rfl, rfl⟩
  · refine ⟨?_, Or.inr ⟨nofun, List.mem_append_left _ hc⟩⟩
    rw [received_opened r (hs.live_lt c hc), published, published, List.append_nil]
  · exact ⟨(List.append_nil _).symm, Or.inr ⟨nofun, hc⟩⟩
  · have hnodup : s.live.Nodup := hs.live_nodup.of_map _
    refine ⟨by rw [received_closed]; simp [published], ?_⟩
    by_cases hdc : d = c
    · subst hdc
      refine Or.inl ⟨rfl, ?_, fun d' hd' heq => ?_⟩
      · rw [ChatServer.closed_subjects_length]
        exact hs.live_lt d hd
      · obtain ⟨hne, hlive⟩ := hnodup.mem_erase_iff.1 hd'
        exact hne (hs.eq_of_subject hlive hd heq)
    · refine Or.inr ⟨fun heq => hdc (by cases heq; rfl), ?_⟩
      exact (List.mem_erase_of_ne (Ne.symm hdc)).2 hc
  · exact ⟨(List.append_nil _).symm, Or.inr ⟨nofun, hc⟩⟩
  · refine ⟨?_, Or.inr ⟨nofun, hc⟩⟩
    obtain ⟨k, hk, rfl⟩ := he
    have hdecode := channelKey_of_notMem hk
    rw [published, published, List.append_nil]
    split_ifs with hchannel
    · obtain rfl := streamChannel_eq_iff.1 hchannel
      cases hp : lib.parse message with
      | some payload => exact received_of_registered lib hs (hreg c hc) hdecode hp h
      | none =>
        rw [Option.toList_none, List.append_nil, ChatService.route_of_parse_none hp]
    · rw [List.append_nil]
      refine received_of_channelKey_ne lib hs hc (fun hck => hchannel ?_) h
      exact streamChannel_eq_iff.2 (Option.some.inj (hdecode.symm.trans hck))

theorem published_disconnect (es : List Event) : published lib c (.disconnect c :: es) = [] :=
  if_pos rfl

theorem published_cons (he : e ≠ .disconnect c) (es : List Event) :
    published lib c (e :: es) = published lib c [e] ++ published lib c es := by
  cases e with
  | disconnect d =>
    have hd : d ≠ c := by rintro rfl; exact he rfl
    simp [published, hd]
  | pmessage channel message => simp [published]
  | _ => rfl

end Steps

/-! ### Runs -/

section Runs

variable {lib} {s t : ChatServer α} {c : Connection}

theorem gone_run {es : List Event} (hs : Consistent s) (hg : Gone s c)
    (h : run (step lib) s es = some t) : received t c = received s c := by
  induction es generalizing s with
  | nil => cases h; rfl
  | cons e es ih =>
    obtain ⟨u, hu, h⟩ := (run_cons_eq_some _).1 h
    obtain ⟨hg', hrecv⟩ := gone_step hs hg hu
    rw [ih (hs.step lib hu) hg' h, hrecv]

/-- From a state in which all live connections are registered. -/
theorem live_run {es : List Event} (hs : Consistent s) (hreg : AllRegistered s) (hc : c ∈ s.live)
    (hmeets : Meets (step lib) Separate s es) (h : run (step lib) s es = some t) :
    received t c = received s c ++ published lib c es := by
  induction es generalizing s with
  | nil => cases h; exact (List.append_nil _).symm
  | cons e es ih =>
    obtain ⟨u, hu, hrun⟩ := (run_cons_eq_some _).1 h
    obtain ⟨he, hmeets'⟩ := hmeets u hu
    obtain ⟨hrecv, hnext⟩ := live_step hs hreg hc he hu
    have hs' := hs.step lib hu
    rcases hnext with ⟨rfl, hg⟩ | ⟨hopen, hc'⟩
    · rw [gone_run hs' hg hrun, hrecv, published_disconnect, published_disconnect]
    · rw [ih hs' (hreg.step hs he hu) hc' hmeets' hrun, hrecv, published_cons hopen es,
        List.append_assoc]

end Runs

/-- What a run delivers: the connection that a step of it opens receives exactly the payloads
published for it until it closes; and a message that is no JSON, or for whose channel there is no
live connection, leaves the whole state as it is. -/
structure Delivered (es : List Event) : Prop where
  in_order : ∀ pre e post s u t c, pre ++ e :: post <+: es →
    run (step lib) ChatServer.init pre = some s → step lib s e = some u → c ∉ s.live →
      c ∈ u.live → run (step lib) u post = some t → received t c = published lib c post
  dropped : ∀ s k message, Visits (step lib) (ChatServer.init : ChatServer α) es s →
    ':' ∉ k.toList → (lib.parse message = none ∨ ∀ c ∈ s.live, c.key ≠ k) →
      step lib s (.pmessage ("chat:stream:" ++ k) message) = some s

/-- The invariant of such a run. -/
theorem allRegistered_of_meets {es : List Event}
    (h : Meets (step lib) Separate (ChatServer.init : ChatServer α) es) :
    ∀ s, Visits (step lib) (ChatServer.init : ChatServer α) es s →
      Consistent s ∧ AllRegistered s := by
  have hkeep : ∀ s e t, (Consistent s ∧ AllRegistered s) → Separate s e →
      step lib s e = some t → Consistent t ∧ AllRegistered t := by
    rintro s e t ⟨hs, hreg⟩ he hstep
    exact ⟨hs.step lib hstep, hreg.step hs he hstep⟩
  exact invariant_of_meets hkeep ⟨consistent_init, fun c hc => absurd hc List.not_mem_nil⟩ h

/-- A connection that a step opens has received nothing. -/
theorem received_of_opened {lib : External α} {s u : ChatServer α} {e : Event} {c : Connection}
    (h : step lib s e = some u) (hnew : c ∉ s.live) (hc : c ∈ u.live) : received u c = [] := by
  rcases step_cases lib h with ⟨r, rfl, -, rfl⟩ | ⟨r, rfl, -, rfl⟩ | ⟨d, rfl, -, rfl⟩ |
    ⟨dto, env, rfl, rfl⟩ | ⟨channel, message, rfl, rfl⟩
  · obtain rfl := List.mem_singleton.1 ((List.mem_append.1 hc).resolve_left hnew)
    simp only [received, ChatServer.opened, List.getElem?_concat_length]
    rfl
  · exact absurd hc hnew
  · exact absurd (List.mem_of_mem_erase hc) hnew
  · exact absurd hc hnew
  · exact absurd hc hnew

/-- **In a run of separate connections every stream delivers what was published for it, in order
and once.** -/
theorem delivered_of_meets (es : List Event)
    (h : Meets (step lib) Separate (ChatServer.init : ChatServer α) es) : Delivered lib es := by
  refine ⟨?_, ?_⟩
  · rintro pre e post s u t c ⟨rest, rfl⟩ hpre hstep hnew hc hrun
    have hvisit : Visits (step lib) ChatServer.init (pre ++ e :: post ++ rest) s :=
      ⟨pre, ⟨e :: post ++ rest, by rw [List.append_assoc]⟩, hpre⟩
    obtain ⟨hs, hreg⟩ := allRegistered_of_meets lib h s hvisit
    rw [List.append_assoc] at h
    obtain ⟨he, hmeets⟩ := (h.of_run hpre) u hstep
    have hlive := live_run (hs.step lib hstep) (hreg.step hs he hstep) hc hmeets.of_append hrun
    rw [hlive, received_of_opened hstep hnew hc, List.nil_append]
  · intro s k message hvisit hk hno
    have hs := consistent_of_reachable lib hvisit.reachable
    have hdecode := channelKey_of_notMem hk
    refine congrArg some ?_
    rcases hno with hnone | hno
    · rw [ChatService.route_of_parse_none hnone]
    · rcases s.service.route_cases lib.parse ("chat:stream:" ++ k) message with
        heq | ⟨ref, payload, ht, -, -⟩
      · rw [heq]
      · obtain ⟨k', hk', hlookup⟩ := ChatService.routeTarget_eq_some ht
        obtain rfl := Option.some.inj (hdecode.symm.trans hk')
        obtain ⟨c, hc, -, hck⟩ := hs.registered_live _ _ hlookup
        exact absurd hck (hno c hc)

/-- Two tabs, a message for the first, one that is no JSON, and a message after its end. -/
def twoTabsRun : List Event :=
  [.connect reconnectRequest, .connect otherRequest,
    .pmessage "chat:stream:visitor-1-tab-1" "{}", .pmessage "chat:stream:visitor-2-tab-2" "oops",
    .disconnect ⟨"visitor-1", "tab-1", 0⟩, .pmessage "chat:stream:visitor-1-tab-1" "{}"]

theorem separate_twoTabsRun :
    Meets (step emptyObject) Separate (ChatServer.init : ChatServer Unit) twoTabsRun := by
  intro s₁ h₁
  refine ⟨fun _ => by decide, fun s₂ h₂ => ?_⟩
  cases Option.some.inj h₁
  refine ⟨fun _ => by decide, fun s₃ h₃ => ⟨⟨"visitor-1-tab-1", by decide, rfl⟩, fun s₄ h₄ => ?_⟩⟩
  refine ⟨⟨"visitor-2-tab-2", by decide, rfl⟩, fun s₅ h₅ => ⟨trivial, fun s₆ h₆ => ?_⟩⟩
  exact ⟨⟨"visitor-1-tab-1", by decide, rfl⟩, trivial⟩

theorem delivered_twoTabsRun : ∃ s,
    run (step emptyObject) ChatServer.init twoTabsRun = some s ∧
      received s ⟨"visitor-1", "tab-1", 0⟩ = [()] ∧ Delivered emptyObject twoTabsRun :=
  ⟨_, rfl, rfl, delivered_of_meets emptyObject twoTabsRun separate_twoTabsRun⟩

end ProtostarNest.Chat
