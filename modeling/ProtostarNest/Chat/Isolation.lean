import ProtostarNest.Chat.Slots

/-!
# What connections do to each other

`removeClient` and `routeMessageToUser` find a stream by its key `{uuid}-{sessionId}`, not by the
connection.  This file says when that hurts another connection.

* `unharmed_iff`: the end of one connection leaves another intact iff the other is not the one
  registered under the closing one's key;
* `isolated_iff`: two different pairs cannot interfere iff the key of the first has no second
  reading as a pair and its channel does not decode to the key of the second;
* `channelDecodes_iff`: a channel decodes to the key it was built from iff the pair has no `:`.
-/

namespace ProtostarNest.Chat

open Transition

variable {α : Type*} (lib : External α)

/-! ### Keys and channels -/

theorem toList_streamKey (uuid sessionId : String) :
    (streamKey uuid sessionId).toList = uuid.toList ++ '-' :: sessionId.toList :=
  Separator.toList_join '-' uuid sessionId

theorem streamKey_ne (uuid sessionId : String) : streamKey uuid sessionId ≠ "" := by
  intro h
  have hnil := congrArg String.toList h
  rw [toList_streamKey] at hnil
  simp at hnil

/-- A pair without a `-` inside is the only pair of non-empty strings with its key. -/
theorem streamKey_inj {u s a b : String} (hu : u ≠ "") (hs : s ≠ "") (ha : a ≠ "") (hb : b ≠ "")
    (hdash : '-' ∉ u.toList.tail ∧ '-' ∉ s.toList.dropLast) (h : streamKey a b = streamKey u s) :
    a = u ∧ b = s := by
  have hlist := congrArg String.toList h
  rw [toList_streamKey, toList_streamKey] at hlist
  by_contra hne
  refine (not_or.2 hdash) ((Separator.exists_other_split_iff (Separator.toList_ne_nil hu)
    (Separator.toList_ne_nil hs)).1 ⟨a.toList, b.toList, Separator.toList_ne_nil ha,
      Separator.toList_ne_nil hb, fun heq => hne ?_, hlist⟩)
  rw [Prod.mk.injEq] at heq
  exact ⟨String.toList_injective heq.1, String.toList_injective heq.2⟩

/-- A pair with a `-` inside shares its key with another pair of non-empty strings. -/
theorem exists_streamKey_eq {u s : String} (hu : u ≠ "") (hs : s ≠ "")
    (hdash : '-' ∈ u.toList.tail ∨ '-' ∈ s.toList.dropLast) :
    ∃ a b, a ≠ "" ∧ b ≠ "" ∧ ¬ (a = u ∧ b = s) ∧ streamKey a b = streamKey u s := by
  obtain ⟨a, b, ha, hb, hne, h⟩ := (Separator.exists_other_split_iff (Separator.toList_ne_nil hu)
    (Separator.toList_ne_nil hs)).2 hdash
  refine ⟨String.ofList a, String.ofList b, by simpa using ha, by simpa using hb, ?_, ?_⟩
  · rintro ⟨rfl, rfl⟩
    exact hne (by simp)
  · apply String.toList_injective
    rw [toList_streamKey, toList_streamKey, String.toList_ofList, String.toList_ofList, h]

/-- The key that is extracted from the channel of a pair. -/
theorem channelKey_streamChannel (uuid sessionId : String) :
    ChatService.channelKey (streamChannel uuid sessionId) =
      some (String.ofList (Separator.lastPiece ':' (streamKey uuid sessionId).toList)) := by
  have hchannel : (streamChannel uuid sessionId).toList =
      "chat:stream".toList ++ ':' :: (streamKey uuid sessionId).toList := by
    rw [streamChannel, String.toList_append]; rfl
  rw [ChatService.channelKey, Separator.getLast?_split, hchannel,
    Separator.lastPiece_append_cons]

theorem channelKey_streamChannel_iff {uuid sessionId k : String} :
    ChatService.channelKey (streamChannel uuid sessionId) = some k ↔
      Separator.lastPiece ':' (streamKey uuid sessionId).toList = k.toList := by
  rw [channelKey_streamChannel, Option.some.injEq]
  constructor
  · rintro rfl
    rw [String.toList_ofList]
  · intro h
    rw [h, String.ofList_toList]

/-! ### Registered connections -/

/-- The label neither opens nor closes a connection with the key of `c`. -/
def Spares (c : Connection) : Event → Prop
  | .connect r => streamKey r.targetUuid r.sessionId ≠ c.key
  | .disconnect d => d.key ≠ c.key
  | _ => True

variable {s t : ChatServer α} {c d : Connection}

theorem routed_streamMap (parse : String → Option α) (svc : ChatService α)
    (channel message : String) :
    (svc.routeMessageToUser parse channel message).streamMap = svc.streamMap := by
  rcases svc.route_cases parse channel message with heq | ⟨ref, payload, -, -, heq⟩ <;> rw [heq]

theorem registered_step {e : Event} (hc : c ∈ s.live) (hreg : Registered s c)
    (he : Spares c e) (h : step lib s e = some t) : c ∈ t.live ∧ Registered t c := by
  rcases step_cases lib h with ⟨r, rfl, -, rfl⟩ | ⟨r, rfl, -, rfl⟩ | ⟨d, rfl, -, rfl⟩ |
    ⟨dto, env, rfl, rfl⟩ | ⟨channel, message, rfl, rfl⟩
  · exact ⟨List.mem_append_left _ hc, (AList.lookup_insert_ne (Ne.symm he)).trans hreg⟩
  · exact ⟨hc, hreg⟩
  · have hcd : c ≠ d := by rintro rfl; exact he rfl
    refine ⟨(List.mem_erase_of_ne hcd).2 hc, ?_⟩
    rw [Registered, ChatServer.closed_lookup, if_neg (Ne.symm he)]
    exact hreg
  · exact ⟨hc, hreg⟩
  · exact ⟨hc, by rw [Registered]; simp only [routed_streamMap]; exact hreg⟩

/-- A registered connection stays registered through any run that spares its key. -/
theorem registered_run {es : List Event} (hc : c ∈ s.live) (hreg : Registered s c)
    (hes : ∀ e ∈ es, Spares c e) (h : run (step lib) s es = some t) :
    c ∈ t.live ∧ Registered t c := by
  induction es generalizing s with
  | nil => cases h; exact ⟨hc, hreg⟩
  | cons e es ih =>
    obtain ⟨u, hu, h⟩ := (run_cons_eq_some _).1 h
    obtain ⟨hc', hreg'⟩ := registered_step lib hc hreg (hes e List.mem_cons_self) hu
    exact ih hc' hreg' (fun e he => hes e (List.mem_cons_of_mem _ he)) h

/-- A message on a channel that decodes to the key of a registered connection reaches it. -/
theorem received_of_registered (hs : Consistent s) (hreg : Registered s c)
    {channel message : String} {payload : α} (hk : ChatService.channelKey channel = some c.key)
    (hp : lib.parse message = some payload)
    (h : step lib s (.pmessage channel message) = some t) :
    received t c = received s c ++ [payload] := by
  obtain ⟨sub, hsub, hopen, hobs⟩ := hs.registered_open _ _ hreg
  have htarget := ChatService.routeTarget_of_lookup hk (streamKey_ne _ _) hreg
  cases Option.some.inj h
  simp only [received, ChatService.routeMessageToUser, htarget, hp, List.getElem?_modify_eq, hsub,
    Option.map_some, Option.getD_some]
  exact Subject.next_of_open hopen hobs payload

/-! ### Closing one connection -/

/-- What the step from `s` to `t` may not do to `c`: complete its `Subject`, unregister it, or
keep later messages on its channel from it. -/
structure Unharmed (s t : ChatServer α) (c : Connection) : Prop where
  not_completed : Completed t c → Completed s c
  registered : Registered s c → Registered t c
  active : Registered s c → t.service.hasActiveStream c.uuid c.sessionId = true
  reached : Registered s c → ∀ es u, (∀ e ∈ es, Spares c e) → run (step lib) t es = some u →
    ∀ channel message payload v, ChatService.channelKey channel = some c.key →
      lib.parse message = some payload → step lib u (.pmessage channel message) = some v →
        received v c = received u c ++ [payload]

theorem completed_closed_iff (hne : c.subject ≠ d.subject)
    (hkey : s.service.streamMap.lookup d.key ≠ some c.subject) :
    Completed (s.closed d) c ↔ Completed s c := by
  rw [Completed, ChatServer.closed_subject hne hkey, Completed]

/-- **The end of `d` leaves another live connection `c` intact iff `c` is not the connection
registered under the key of `d`.** -/
theorem unharmed_iff (h : Reachable (step lib) ChatServer.init s) (hc : c ∈ s.live)
    (hd : d ∈ s.live) (hne : c ≠ d) (hstep : step lib s (.disconnect d) = some t) :
    Unharmed lib s t c ↔ s.service.streamMap.lookup d.key ≠ some c.subject := by
  have hs := consistent_of_reachable lib h
  have hsubj : c.subject ≠ d.subject := fun heq => hne (hs.eq_of_subject hc hd heq)
  have hreach := h.tail hstep
  rw [step_disconnect lib hd] at hstep
  obtain rfl := Option.some.inj hstep
  constructor
  · intro hsafe hkey
    -- the `Subject` that `removeClient` completes is the one of `c`, which was still open
    obtain ⟨sub, hsub, hopen, -⟩ := hs.registered_open _ _ hkey
    have hdone : Completed (s.closed d) c := by
      rw [Completed, ChatServer.closed_of_lookup hkey]
      simp only [List.getElem?_modify_eq, List.getElem?_modify_ne _ _ hsubj.symm, hsub]
      exact ⟨sub.complete, rfl, rfl⟩
    obtain ⟨sub', hsub', hstop⟩ := hsafe.not_completed hdone
    obtain rfl := Option.some.inj (hsub.symm.trans hsub')
    rw [hopen] at hstop
    cases hstop
  · intro hkey
    have hreg : Registered s c → Registered (s.closed d) c := by
      intro hreg
      have hck : c.key ≠ d.key := fun heq => hkey (heq ▸ hreg)
      rw [Registered, ChatServer.closed_lookup, if_neg hck]
      exact hreg
    refine ⟨(completed_closed_iff hsubj hkey).1, hreg, fun hr => ?_, ?_⟩
    · exact ChatService.hasActiveStream_iff.2 ⟨_, hreg hr⟩
    · intro hr es u hes hrun channel message payload v hk hp hv
      have hlive : c ∈ (s.closed d).live := (List.mem_erase_of_ne hne).2 hc
      obtain ⟨-, hreg'⟩ := registered_run lib hlive (hreg hr) hes hrun
      have hu := consistent_of_reachable lib (hreach.trans ⟨es, hrun⟩)
      exact received_of_registered lib hu hreg' hk hp hv

/-- Two requests of one visitor or of two, both accepted. -/
def twoTabs (r₁ r₂ : StreamRequest) : ChatServer Unit := (ChatServer.init.opened r₁).opened r₂

theorem reachable_twoTabs (r₁ r₂ : StreamRequest) :
    Reachable (step noExternal) ChatServer.init (twoTabs r₁ r₂) := by
  have h₁ := step_connect_of_lt noExternal (s := ChatServer.init) (by decide) r₁
  have h₂ := step_connect_of_lt noExternal (s := ChatServer.init.opened r₁)
    (show 0 + 1 < CHAT_MAX_CONNECTIONS by decide) r₂
  exact ((Reachable.refl _).tail h₁).tail h₂

def otherRequest : StreamRequest :=
  { sessionId := "tab-2", earlyUUID := some "visitor-2", uuidv4 := "generated-2" }

theorem unharmed_iff_otherRequest :
    Unharmed noExternal (twoTabs reconnectRequest otherRequest)
        ((twoTabs reconnectRequest otherRequest).closed ⟨"visitor-1", "tab-1", 0⟩)
        ⟨"visitor-2", "tab-2", 1⟩ ↔
      (twoTabs reconnectRequest otherRequest).service.streamMap.lookup
        (Connection.key ⟨"visitor-1", "tab-1", 0⟩) ≠ some 1 :=
  unharmed_iff noExternal (reachable_twoTabs _ _) (by decide) (by decide) (by decide)
    (step_disconnect noExternal (by decide))

/-- The late close of the first socket completes the `Subject` of the reconnected one. -/
theorem reconnect_harmed :
    ¬ ∀ (s t : ChatServer Unit) (c d : Connection), Reachable (step noExternal) ChatServer.init s →
      c ∈ s.live → d ∈ s.live → c ≠ d → step noExternal s (.disconnect d) = some t →
        Unharmed noExternal s t c := by
  intro h
  have hsafe := h (twoTabs reconnectRequest reconnectRequest) _ ⟨"visitor-1", "tab-1", 1⟩
    ⟨"visitor-1", "tab-1", 0⟩ (reachable_twoTabs _ _) (by decide) (by decide) (by decide)
    (step_disconnect noExternal (by decide))
  obtain ⟨sub, hsub, hstop⟩ := hsafe.not_completed ⟨_, rfl, rfl⟩
  obtain rfl := Option.some.inj hsub
  cases hstop

/-! ### Two pairs -/

/-- The labels that stand for an operation of the pair `(uuid, sessionId)`. -/
def Event.By (uuid sessionId : String) : Event → Prop
  | .connect r => r.targetUuid = uuid ∧ r.sessionId = sessionId
  | .disconnect c => c.uuid = uuid ∧ c.sessionId = sessionId
  | .dispatchJob dto _ => dto.uuid = uuid ∧ dto.sessionId = sessionId
  | .pmessage channel _ => channel = streamChannel uuid sessionId

/-- In every reachable state: operations of `(u', s')` leave the streams of live connections
opened as `(u, s)` alone; `(u, s)` counts as connected, and its jobs are accepted, only while a
connection opened with exactly this pair is live; and messages for `(u, s)` do not reach the
connections opened as `(u', s')`. -/
structure Isolated (u s u' s' : String) : Prop where
  untouched : ∀ σ τ e c, Reachable (step lib) ChatServer.init σ → e.By u' s' →
    step lib σ e = some τ → c ∈ σ.live → c.uuid = u → c.sessionId = s →
      (Registered σ c → Registered τ c) ∧ (Completed τ c → Completed σ c)
  authorized : ∀ σ, Reachable (step lib) ChatServer.init σ →
    σ.service.hasActiveStream u s = true → ∃ c ∈ σ.live, c.uuid = u ∧ c.sessionId = s
  accepted : ∀ σ dto env, Reachable (step lib) ChatServer.init σ → dto.uuid = u →
    dto.sessionId = s →
      (σ.service.dispatchJob lib.sanitize σ.redis dto env).1 ≠ .error .Unauthorized →
        ∃ c ∈ σ.live, c.uuid = u ∧ c.sessionId = s
  delivered : ∀ σ τ message c, Reachable (step lib) ChatServer.init σ →
    step lib σ (.pmessage (streamChannel u s) message) = some τ → c ∈ σ.live →
      c.uuid = u' → c.sessionId = s' → received τ c = received σ c

theorem completed_routed {parse : String → Option α} {channel message : String}
    (h : Completed { s with service := s.service.routeMessageToUser parse channel message } c) :
    Completed s c := by
  obtain ⟨sub, hsub, hstop⟩ := h
  rcases s.service.route_cases parse channel message with heq | ⟨ref, payload, -, -, heq⟩
  · rw [heq] at hsub
    exact ⟨sub, hsub, hstop⟩
  · simp only [heq, List.getElem?_modify] at hsub
    obtain ⟨sub', hsub', rfl⟩ := Option.map_eq_some_iff.1 hsub
    refine ⟨sub', hsub', ?_⟩
    split_ifs at hstop
    · rwa [Subject.isStopped_next] at hstop
    · exact hstop

/-- An operation of a pair whose key differs from the key of `c` neither unregisters `c` nor
completes its `Subject`. -/
theorem untouched_of_key_ne (hs : Consistent s) (hc : c ∈ s.live) {u' s' : String} {e : Event}
    (he : e.By u' s') (hkey : streamKey u' s' ≠ c.key) (h : step lib s e = some t) :
    (Registered s c → Registered t c) ∧ (Completed t c → Completed s c) := by
  have hspares : Spares c e := by
    cases e with
    | connect r => obtain ⟨rfl, rfl⟩ := he; exact hkey
    | disconnect d => obtain ⟨rfl, rfl⟩ := he; exact hkey
    | dispatchJob dto env => trivial
    | pmessage channel message => trivial
  refine ⟨fun hreg => (registered_step lib hc hreg hspares h).2, fun hdone => ?_⟩
  rcases step_cases lib h with ⟨r, rfl, -, rfl⟩ | ⟨r, rfl, -, rfl⟩ | ⟨d, rfl, hd, rfl⟩ |
    ⟨dto, env, rfl, rfl⟩ | ⟨channel, message, rfl, rfl⟩
  · obtain ⟨sub, hsub, hstop⟩ := hdone
    exact ⟨sub, by rwa [ChatServer.opened, List.getElem?_append_left (hs.live_lt c hc)] at hsub,
      hstop⟩
  · exact hdone
  · have hne : c ≠ d := by rintro rfl; exact hspares rfl
    have hlookup : s.service.streamMap.lookup d.key ≠ some c.subject := by
      intro hlookup
      obtain ⟨c', hc', hsubj, hk⟩ := hs.registered_live _ _ hlookup
      rw [hs.eq_of_subject hc' hc hsubj] at hk
      exact hspares hk.symm
    exact (completed_closed_iff (fun heq => hne (hs.eq_of_subject hc hd heq)) hlookup).1 hdone
  · exact hdone
  · exact completed_routed hdone

/-- A message whose channel decodes to another key is not emitted on the stream of `c`. -/
theorem received_of_channelKey_ne (hs : Consistent s) (hc : c ∈ s.live)
    {channel message : String} (hk : ChatService.channelKey channel ≠ some c.key)
    (h : step lib s (.pmessage channel message) = some t) : received t c = received s c := by
  cases Option.some.inj h
  rcases s.service.route_cases lib.parse channel message with heq | ⟨ref, payload, ht, -, heq⟩
  · rw [heq]
  · obtain ⟨k, hchannel, hlookup⟩ := ChatService.routeTarget_eq_some ht
    have hne : ref ≠ c.subject := by
      rintro rfl
      obtain ⟨c', hc', hsubj, rfl⟩ := hs.registered_live _ _ hlookup
      rw [hs.eq_of_subject hc' hc hsubj] at hchannel
      exact hk hchannel
    simp only [heq, received, List.getElem?_modify_ne _ _ hne]

/-- Any pair of non-empty strings can be the only one that is connected. -/
theorem exists_sole_connection {a b : String} (ha : a ≠ "") (hb : b ≠ "") :
    ∃ σ : ChatServer α, Reachable (step lib) ChatServer.init σ ∧ σ.live = [⟨a, b, 0⟩] ∧
      Registered σ ⟨a, b, 0⟩ := by
  let r : StreamRequest :=
    { sessionId := b, earlyUUID := some a, uuidv4 := "generated", sessionId_ne := hb }
  have hr : r.targetUuid = a := if_neg ha
  have hfree : (ChatServer.init : ChatServer α).service.activeConnections <
      CHAT_MAX_CONNECTIONS := show 0 < 600 by omega
  refine ⟨ChatServer.init.opened r, (Reachable.refl _).tail (step_connect_of_lt lib hfree r), ?_⟩
  simp only [ChatServer.opened, hr]
  exact ⟨rfl, AList.lookup_insert _⟩

/-- **Two different pairs are isolated from each other iff the first has no `-` except as first
letter of the uuid or last letter of the session id, and what follows the last `:` of its key is
not the key of the second.** -/
theorem isolated_iff {u s u' s' : String} (hu : u ≠ "") (hs : s ≠ "") (hu' : u' ≠ "")
    (hs' : s' ≠ "") (hne : (u, s) ≠ (u', s'))
    (hjson : ∃ message payload, lib.parse message = some payload) :
    Isolated lib u s u' s' ↔
      ('-' ∉ u.toList.tail ∧ '-' ∉ s.toList.dropLast) ∧
        Separator.lastPiece ':' (streamKey u s).toList ≠ (streamKey u' s').toList := by
  constructor
  · intro hiso
    refine ⟨?_, fun hpiece => ?_⟩
    · by_contra hdash
      -- another pair with the same key makes the first one count as connected
      obtain ⟨a, b, ha, hb, hab, hkey⟩ := exists_streamKey_eq hu hs
        (by rwa [not_and_or, not_not, not_not] at hdash)
      obtain ⟨σ, hσ, hlive, hreg⟩ := exists_sole_connection lib ha hb
      obtain ⟨c, hc, hcu, hcs⟩ := hiso.authorized σ hσ
        (ChatService.hasActiveStream_iff.2 ⟨0, hkey ▸ hreg⟩)
      rw [hlive, List.mem_singleton] at hc
      subst hc
      exact hab ⟨hcu, hcs⟩
    · obtain ⟨message, payload, hp⟩ := hjson
      obtain ⟨σ, hσ, hlive, hreg⟩ := exists_sole_connection lib hu' hs'
      have hrecv := received_of_registered lib (consistent_of_reachable lib hσ) hreg
        (channelKey_streamChannel_iff.2 hpiece) hp rfl
      rw [hiso.delivered σ _ message _ hσ rfl (by rw [hlive]; exact List.mem_singleton_self _)
        rfl rfl] at hrecv
      simpa using congrArg List.length hrecv
  · rintro ⟨hdash, hpiece⟩
    have hkey : streamKey u' s' ≠ streamKey u s := by
      intro heq
      obtain ⟨rfl, rfl⟩ := streamKey_inj hu hs hu' hs' hdash heq
      exact hne rfl
    have hauth : ∀ σ, Reachable (step lib) ChatServer.init σ →
        σ.service.hasActiveStream u s = true → ∃ c ∈ σ.live, c.uuid = u ∧ c.sessionId = s := by
      intro σ hσ hactive
      have hcons := consistent_of_reachable lib hσ
      obtain ⟨ref, href⟩ := ChatService.hasActiveStream_iff.1 hactive
      obtain ⟨c, hc, -, hck⟩ := hcons.registered_live _ _ href
      obtain ⟨hcu, hcs⟩ := hcons.live_ne c hc
      exact ⟨c, hc, streamKey_inj hu hs hcu hcs hdash hck⟩
    refine ⟨?_, hauth, ?_, ?_⟩
    · rintro σ τ e c hσ he hstep hc rfl rfl
      exact untouched_of_key_ne lib (consistent_of_reachable lib hσ) hc he hkey hstep
    · rintro σ dto env hσ rfl rfl hok
      refine hauth σ hσ ?_
      by_contra hinactive
      exact hok (by rw [ChatService.dispatchJob, if_pos (by simpa using hinactive)])
    · rintro σ τ message c hσ hstep hc rfl rfl
      exact received_of_channelKey_ne lib (consistent_of_reachable lib hσ) hc
        (fun hk => hpiece (channelKey_streamChannel_iff.1 hk)) hstep

/-- Parses the empty object only. -/
def emptyObject : External Unit := ⟨fun m => if m = "{}" then some () else none, id⟩

theorem isolated_iff_plain :
    Isolated emptyObject "alice" "1" "bob" "2" ↔
      ('-' ∉ "alice".toList.tail ∧ '-' ∉ "1".toList.dropLast) ∧
        Separator.lastPiece ':' (streamKey "alice" "1").toList ≠ (streamKey "bob" "2").toList :=
  isolated_iff emptyObject (by decide) (by decide) (by decide) (by decide) (by decide)
    ⟨"{}", (), rfl⟩

/-- The pairs `(a-b, c)` and `(a, b-c)` have one key: a connection of the second authorizes jobs
of the first. -/
theorem dash_not_isolated :
    ¬ ∀ u s u' s' : String, u ≠ "" → s ≠ "" → u' ≠ "" → s' ≠ "" → (u, s) ≠ (u', s') →
      Isolated emptyObject u s u' s' := by
  intro h
  have hiso := h "a-b" "c" "a" "b-c" (by decide) (by decide) (by decide) (by decide) (by decide)
  obtain ⟨σ, hσ, hlive, hreg⟩ := exists_sole_connection emptyObject (a := "a") (b := "b-c")
    (by decide) (by decide)
  obtain ⟨c, hc, hcu, -⟩ := hiso.authorized σ hσ (ChatService.hasActiveStream_iff.2 ⟨0, hreg⟩)
  rw [hlive, List.mem_singleton] at hc
  subst hc
  exact absurd hcu (by decide)

/-! ### Channels -/

/-- The key extracted from the channel of a pair is the key of the pair, and in every reachable
state a message on that channel goes to no stream registered under another key. -/
structure ChannelDecodes (uuid sessionId : String) : Prop where
  decodes : ChatService.channelKey (streamChannel uuid sessionId) =
    some (streamKey uuid sessionId)
  routes : ∀ σ k ref, Reachable (step lib) ChatServer.init σ →
    σ.service.routeTarget (streamChannel uuid sessionId) = some ref →
      σ.service.streamMap.lookup k = some ref → k = streamKey uuid sessionId

/-- **A channel decodes to the key it was built from iff neither string contains a `:`.** -/
theorem channelDecodes_iff (uuid sessionId : String) :
    ChannelDecodes lib uuid sessionId ↔ ':' ∉ uuid.toList ∧ ':' ∉ sessionId.toList := by
  have hmem : ':' ∉ (streamKey uuid sessionId).toList ↔
      ':' ∉ uuid.toList ∧ ':' ∉ sessionId.toList := by
    rw [toList_streamKey]
    simp
  constructor
  · intro h
    exact hmem.1 (Separator.lastPiece_eq_self_iff.1 (channelKey_streamChannel_iff.1 h.decodes))
  · intro h
    have hdec := channelKey_streamChannel_iff.2 (Separator.lastPiece_eq_self_iff.2 (hmem.2 h))
    refine ⟨hdec, fun σ k ref hσ ht hk => ?_⟩
    obtain ⟨k', hk', hlookup⟩ := ChatService.routeTarget_eq_some ht
    obtain rfl := Option.some.inj (hdec.symm.trans hk')
    exact (consistent_of_reachable lib hσ).eq_of_lookup hk hlookup

/-- A session id with a `:` loses what stands before it. -/
theorem colon_not_channelDecodes :
    ¬ ∀ uuid sessionId : String, uuid ≠ "" → sessionId ≠ "" →
      ChannelDecodes noExternal uuid sessionId := by
  intro h
  have hdec := (h "visitor-1" "tab:1" (by decide) (by decide)).decodes
  exact absurd hdec (by decide)

end ProtostarNest.Chat
