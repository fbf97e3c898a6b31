import ProtostarNest.Chat.Server

/-!
# Connection slots

`activeConnections` is meant to count the open connections.  `addClient` always increments it,
while `removeClient` decrements it only if the key of the closing connection is still in
`streamMap`; a key can be missing there because another connection with the same key has closed
before.

* `slots_step`: each step keeps the difference between counter and live connections, except a
  disconnect with a missing key, which raises it by one;
* `slots_exact_iff`: the counter is exact all along a run iff no step of it is of that kind;
* `capped_of_reachable`: in any case the counter stays between the live connections and the
  limit, and the map holds open streams of live connections only.
-/

namespace ProtostarNest.Chat

open Transition

variable {α : Type*} (lib : External α)

/-- The counter equals the number of live connections, and a server without connections accepts
as many clients as the limit allows. -/
structure SlotsExact (s : ChatServer α) : Prop where
  count : s.service.activeConnections = s.live.length
  reopen : s.live = [] → s.service.activeConnections = 0 ∧
    ∀ reqs : List StreamRequest, reqs.length ≤ CHAT_MAX_CONNECTIONS →
      ∃ t, run (step lib) s (reqs.map Event.connect) = some t ∧ t.live.length = reqs.length

/-- A connection closes while its key is in `streamMap`; nothing is asked of other labels. -/
def ClosesRegistered (s : ChatServer α) : Event → Prop
  | .disconnect c => s.service.hasActiveStream c.uuid c.sessionId = true
  | _ => True

/-- Requests are accepted one after the other as long as the counter allows. -/
theorem run_connects {s : ChatServer α} (reqs : List StreamRequest)
    (h : s.service.activeConnections + reqs.length ≤ CHAT_MAX_CONNECTIONS) :
    ∃ t, run (step lib) s (reqs.map Event.connect) = some t ∧
      t.live.length = s.live.length + reqs.length := by
  induction reqs generalizing s with
  | nil => exact ⟨s, rfl, rfl⟩
  | cons r reqs ih =>
    rw [List.length_cons] at h
    have hstep := step_connect_of_lt lib (s := s) (by omega) r
    obtain ⟨t, ht, hlen⟩ := ih (s := s.opened r) (by simp only [ChatServer.opened]; omega)
    refine ⟨t, by rw [List.map_cons, run_cons_some _ _ hstep, ht], ?_⟩
    rw [hlen]
    simp only [ChatServer.opened, List.length_append, List.length_cons, List.length_nil]
    omega

theorem slotsExact_of_count {s : ChatServer α}
    (h : s.service.activeConnections = s.live.length) : SlotsExact lib s where
  count := h
  reopen := by
    intro hnil
    rw [hnil] at h
    refine ⟨h, fun reqs hreqs => ?_⟩
    obtain ⟨t, ht, hlen⟩ := run_connects lib (s := s) reqs (by rw [h]; simpa using hreqs)
    exact ⟨t, ht, by rw [hlen, hnil]; simp⟩

/-- Counter minus live connections: unchanged by a step, or one more after a disconnect whose
key is missing. -/
theorem slots_step {s t : ChatServer α} {e : Event} (hs : Consistent s)
    (h : step lib s e = some t) :
    (ClosesRegistered s e ∧
      t.service.activeConnections + s.live.length =
        s.service.activeConnections + t.live.length) ∨
    (¬ ClosesRegistered s e ∧ t.service.activeConnections = s.service.activeConnections ∧
      s.live.length = t.live.length + 1) := by
  rcases step_cases lib h with ⟨r, rfl, -, rfl⟩ | ⟨r, rfl, -, rfl⟩ | ⟨c, rfl, hc, rfl⟩ |
    ⟨dto, env, rfl, rfl⟩ | ⟨channel, message, rfl, rfl⟩
  · refine Or.inl ⟨trivial, ?_⟩
    simp only [ChatServer.opened, List.length_append, List.length_cons, List.length_nil]
    omega
  · exact Or.inl ⟨trivial, rfl⟩
  · have hpos : 0 < s.live.length := List.length_pos_of_mem hc
    have hle := hs.live_le
    rw [ChatServer.closed_live, List.length_erase_of_mem hc]
    cases hk : s.service.streamMap.lookup c.key with
    | some ref =>
      rw [ChatServer.closed_active_of_lookup hk]
      exact Or.inl ⟨ChatService.hasActiveStream_iff.2 ⟨ref, hk⟩, by omega⟩
    | none =>
      rw [ChatServer.closed_active_of_lookup_none hk]
      refine Or.inr ⟨fun hreg => ?_, rfl, by omega⟩
      obtain ⟨ref, href⟩ := ChatService.hasActiveStream_iff.1 hreg
      exact Option.some_ne_none ref (href.symm.trans hk)
  · exact Or.inl ⟨trivial, rfl⟩
  · refine Or.inl ⟨trivial, ?_⟩
    rcases s.service.route_cases lib.parse channel message with heq | ⟨ref, payload, -, -, heq⟩
    · rw [heq]
    · rw [heq]

/-- **The slots are exact in every state of a run iff each connection of the run closes while
its key is registered.** -/
theorem slots_exact_iff (es : List Event) :
    (∀ s, Visits (step lib) (ChatServer.init : ChatServer α) es s → SlotsExact lib s) ↔
      Meets (step lib) ClosesRegistered (ChatServer.init : ChatServer α) es := by
  constructor
  · intro hexact
    refine meets_of_visits fun s e t hs ht hstep => ?_
    rcases slots_step lib (consistent_of_reachable lib hs.reachable) hstep with
      ⟨hreg, -⟩ | ⟨-, hactive, hlive⟩
    · exact hreg
    · have hs' := (hexact s hs).count
      have ht' := (hexact t ht).count
      omega
  · intro hmeets s hs
    have hkeep : ∀ s e t,
        (Consistent s ∧ s.service.activeConnections = s.live.length) →
        ClosesRegistered s e → step lib s e = some t →
          Consistent t ∧ t.service.activeConnections = t.live.length := by
      rintro s e t ⟨hcons, hcount⟩ hreg hstep
      refine ⟨hcons.step lib hstep, ?_⟩
      rcases slots_step lib hcons hstep with ⟨-, heq⟩ | ⟨hnot, -⟩
      · omega
      · exact absurd hreg hnot
    have hinv := invariant_of_meets hkeep ⟨consistent_init, rfl⟩ hmeets s hs
    exact slotsExact_of_count lib hinv.2

/-! ### A leaked slot -/

/-- A browser tab that reconnects with its stored pair before the old socket is closed. -/
def reconnectRequest : StreamRequest :=
  { sessionId := "tab-1", earlyUUID := some "visitor-1", uuidv4 := "generated" }

def reconnectRun : List Event :=
  [.connect reconnectRequest, .connect reconnectRequest,
    .disconnect ⟨"visitor-1", "tab-1", 0⟩, .disconnect ⟨"visitor-1", "tab-1", 1⟩]

/-- Nothing is parsed and nothing sanitized. -/
def noExternal : External Unit := ⟨fun _ => none, id⟩

/-- After both connections have closed, the counter still holds one of their slots. -/
theorem reconnectRun_leaks :
    ¬ ∀ (es : List Event) (s : ChatServer Unit),
      Visits (step noExternal) ChatServer.init es s → SlotsExact noExternal s := by
  intro h
  have hrun : (run (step noExternal) ChatServer.init reconnectRun).map
      (fun s => (s.service.activeConnections, s.live)) = some (1, []) := by decide
  obtain ⟨s, hs, hlast⟩ := Visits.of_run_map hrun
  have hcount := (h reconnectRun s hs).count
  simp only [Prod.mk.injEq] at hlast
  rw [hlast.1, hlast.2] at hcount
  exact absurd hcount (by decide)

/-! ### The cap -/

/-- What holds of the counter and the map even when slots have leaked. -/
structure Capped (s : ChatServer α) : Prop where
  size_le : s.service.getStreamMapSize ≤ s.live.length
  live_le : s.live.length ≤ s.service.activeConnections
  active_le : s.service.activeConnections ≤ CHAT_MAX_CONNECTIONS
  registered : ∀ k ref, s.service.streamMap.lookup k = some ref →
    (∃ sub, s.service.subjects[ref]? = some sub ∧ sub.isStopped = false) ∧
      ∃ c ∈ s.live, c.subject = ref ∧ c.key = k
  /-- A connection that finds its key when it closes decrements a positive counter. -/
  decrements : ∀ c ∈ s.live, s.service.hasActiveStream c.uuid c.sessionId = true →
    ¬ s.service.activeConnections ≤ 0

/-- Each key in the map is the key of a live connection, and no two keys are of the same one. -/
theorem Consistent.size_le {s : ChatServer α} (h : Consistent s) :
    s.service.getStreamMapSize ≤ s.live.length := by
  have hsub : s.service.streamMap.keys ⊆ s.live.map Connection.key := by
    intro k hk
    obtain ⟨ref, href⟩ := Option.isSome_iff_exists.1 (AList.lookup_isSome.2 hk)
    obtain ⟨c, hc, -, rfl⟩ := h.registered_live k ref href
    exact List.mem_map_of_mem hc
  have hle := (List.subperm_of_subset s.service.streamMap.keys_nodup hsub).length_le
  rwa [List.length_map] at hle

/-- **After every run, the open streams are at most the live connections, these at most the
counter, and the counter at most the limit.** -/
theorem capped_of_reachable {s : ChatServer α} (h : Reachable (step lib) ChatServer.init s) :
    Capped s := by
  have hs := consistent_of_reachable lib h
  refine ⟨hs.size_le, hs.live_le, hs.active_le, ?_, ?_⟩
  · intro k ref href
    obtain ⟨sub, hsub, hopen, -⟩ := hs.registered_open k ref href
    exact ⟨⟨sub, hsub, hopen⟩, hs.registered_live k ref href⟩
  · intro c hc _
    have hpos : 0 < s.live.length := List.length_pos_of_mem hc
    exact Nat.not_le.2 (Nat.lt_of_lt_of_le hpos hs.live_le)

theorem capped_reconnected : ∃ s : ChatServer Unit,
    run (step noExternal) ChatServer.init (reconnectRun.take 2) = some s ∧
      s.service.getStreamMapSize = 1 ∧ s.live.length = 2 ∧ Capped s :=
  ⟨_, rfl, rfl, rfl, capped_of_reachable noExternal ⟨reconnectRun.take 2, rfl⟩⟩

end ProtostarNest.Chat
