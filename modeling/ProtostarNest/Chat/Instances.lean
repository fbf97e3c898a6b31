import ProtostarNest.Chat.Delivery
import ProtostarNest.Chat.Jobs

/-!
# Several instances of the chat server

Blue and green, or any family of instances, each with its own streams and all with one Redis. Each
has subscribed to `chat:stream:*` before it takes requests.  Redis sends what is published to every
subscriber in order, and keeps nothing for one that has lost its connection.

* `Instance`, `Deployment`, `Deployment.step`;
* `Deployment.Moves`: what a step is for one of the instances;
* `Carried`: what the subscription of an instance brings to one of its streams;
* `streamed_of_run`, `answered_of_run`: every stream of every instance gets its answers.
-/

namespace ProtostarNest.Chat

open Transition

/-- One server: `pending` is what Redis has sent and `pmessage` was not yet called with. -/
structure Instance (α : Type*) where
  service : ChatService α
  live : List Connection
  pending : List (String × String)

structure Deployment (ι α : Type*) where
  instances : ι → Instance α
  redis : Redis

variable {ι α : Type*} [DecidableEq ι] (lib : External α)

def Instance.init : Instance α := ⟨ChatService.init, [], []⟩

/-- The instance as the only server on this Redis. -/
def Instance.server (inst : Instance α) (redis : Redis) : ChatServer α :=
  ⟨inst.service, inst.live, redis⟩

namespace Deployment

inductive Label (ι : Type*)
  | publish (channel message : String)
  | pmessage (i : ι)
  | missed (i : ι)
  | request (i : ι) (e : Event)

/-- All instances have just started. -/
def boot : Deployment ι α := ⟨fun _ => .init, ⟨[], []⟩⟩

/-- The event reaches the instance `i`, which has `pending` left. -/
def serve (s : Deployment ι α) (i : ι) (pending : List (String × String)) (e : Event) :
    Option (Deployment ι α) :=
  (Chat.step lib ((s.instances i).server s.redis) e).map fun t =>
    ⟨Function.update s.instances i ⟨t.service, t.live, pending⟩, t.redis⟩

/-- One label. A `pmessage` comes from Redis only. -/
def step (s : Deployment ι α) : Label ι → Option (Deployment ι α)
  | .publish channel message =>
      some { s with
        instances := fun i =>
          { s.instances i with pending := (s.instances i).pending ++ [(channel, message)] } }
  | .pmessage i =>
      match (s.instances i).pending with
      | [] => none
      | (channel, message) :: pending => s.serve lib i pending (.pmessage channel message)
  | .missed i =>
      match (s.instances i).pending with
      | [] => none
      | _ :: pending =>
          some { s with
            instances :=
              Function.update s.instances i { s.instances i with pending := pending } }
  | .request _ (.pmessage _ _) => none
  | .request i e => s.serve lib i (s.instances i).pending e

/-- The messages that the labels publish. -/
def publications : List (Label ι) → List (String × String)
  | [] => []
  | .publish channel message :: ls => (channel, message) :: publications ls
  | .pmessage _ :: ls => publications ls
  | .missed _ :: ls => publications ls
  | .request _ _ :: ls => publications ls

/-- On each instance the connections are separate, and the channels are as in `Separate`. -/
def Apart (s : Deployment ι α) : Label ι → Prop
  | .publish channel _ => ∃ k : String, ':' ∉ k.toList ∧ channel = "chat:stream:" ++ k
  | .request i e => Separate ((s.instances i).server s.redis) e
  | .pmessage _ => True
  | .missed _ => True

/-- What a step with this label is for the instance `i`. -/
inductive Moves (s s' : Deployment ι α) (i : ι) : Label ι → Prop
  | publish (channel message : String)
      (h : s'.instances i =
        { s.instances i with pending := (s.instances i).pending ++ [(channel, message)] }) :
      Moves s s' i (.publish channel message)
  | pmessage (channel message : String)
      (hpending : (s.instances i).pending = (channel, message) :: (s'.instances i).pending)
      (h : Chat.step lib ((s.instances i).server s.redis) (.pmessage channel message) =
        some ((s'.instances i).server s'.redis)) :
      Moves s s' i (.pmessage i)
  | missed (m : String × String)
      (hpending : (s.instances i).pending = m :: (s'.instances i).pending)
      (hservice : (s'.instances i).service = (s.instances i).service)
      (hlive : (s'.instances i).live = (s.instances i).live) :
      Moves s s' i (.missed i)
  | request (e : Event) (he : ∀ channel message, e ≠ .pmessage channel message)
      (hpending : (s'.instances i).pending = (s.instances i).pending)
      (h : Chat.step lib ((s.instances i).server s.redis) e =
        some ((s'.instances i).server s'.redis)) :
      Moves s s' i (.request i e)
  | other (l : Label ι) (hl : publications [l] = []) (h : s'.instances i = s.instances i) :
      Moves s s' i l

section Step

variable {lib} {s s' : Deployment ι α} {l : Label ι} {i j : ι}

theorem serve_cases {pending : List (String × String)} {e : Event}
    (h : s.serve lib j pending e = some s') (i : ι) :
    (j ≠ i ∧ s'.instances i = s.instances i) ∨
      j = i ∧ (s'.instances i).pending = pending ∧
        Chat.step lib ((s.instances i).server s.redis) e =
          some ((s'.instances i).server s'.redis) := by
  obtain ⟨t, ht, rfl⟩ := Option.map_eq_some_iff.1 h
  by_cases hji : j = i
  · subst hji
    refine Or.inr ⟨rfl, by simp only [Function.update_self], ?_⟩
    simp only [Function.update_self]
    exact ht
  · exact Or.inl ⟨hji, Function.update_of_ne (Ne.symm hji) _ _⟩

theorem step_moves (h : step lib s l = some s') (i : ι) : Moves lib s s' i l := by
  cases l with
  | publish channel message =>
    cases Option.some.inj h
    exact .publish channel message rfl
  | pmessage j =>
    simp only [step] at h
    split at h
    · cases h
    · rename_i channel message pending hpending
      rcases serve_cases h i with ⟨-, hsame⟩ | ⟨rfl, rfl, hstep⟩
      · exact .other _ rfl hsame
      · exact .pmessage channel message hpending hstep
  | missed j =>
    simp only [step] at h
    split at h
    · cases h
    · rename_i m pending hpending
      cases Option.some.inj h
      by_cases hji : j = i
      · subst hji
        exact .missed m (by simp only [Function.update_self, hpending])
          (by simp only [Function.update_self]) (by simp only [Function.update_self])
      · exact .other _ rfl (Function.update_of_ne (Ne.symm hji) _ _)
  | request j e =>
    have hserve : (∀ channel message, e ≠ .pmessage channel message) ∧
        s.serve lib j (s.instances j).pending e = some s' := by
      cases e with
      | pmessage channel message => cases h
      | _ => exact ⟨by rintro _ _ ⟨⟩, h⟩
    obtain ⟨he, hserve⟩ := hserve
    rcases serve_cases hserve i with ⟨-, hsame⟩ | ⟨rfl, hpending, hstep⟩
    · exact .other _ rfl hsame
    · exact .request e he hpending hstep

omit [DecidableEq ι] in
theorem publications_cons (l : Label ι) (ls : List (Label ι)) :
    publications (l :: ls) = publications [l] ++ publications ls := by
  cases l <;> rfl

end Step

end Deployment

/-! ### One instance -/

section Instances

open Deployment

variable {lib} {s s' t : Deployment ι α} {l : Label ι} {i : ι} {c : Connection}

/-- What holds of each instance, whatever is in Redis. -/
structure Instance.Sound (inst : Instance α) : Prop where
  consistent : ∀ redis, Consistent (inst.server redis)
  allRegistered : ∀ redis, AllRegistered (inst.server redis)
  routable : ∀ m ∈ inst.pending, ∃ k : String, ':' ∉ k.toList ∧ m.1 = "chat:stream:" ++ k

theorem Consistent.server {inst : Instance α} {redis : Redis}
    (h : Consistent (inst.server redis)) (redis' : Redis) : Consistent (inst.server redis') :=
  ⟨h.1, h.2, h.3, h.4, h.5, h.6, h.7⟩

theorem sound_init : (Instance.init : Instance α).Sound := by
  have hcons : Consistent ((Instance.init : Instance α).server ⟨[], []⟩) := consistent_init
  exact ⟨hcons.server, fun _ _ hc => absurd hc List.not_mem_nil,
    fun _ hm => absurd hm List.not_mem_nil⟩

theorem Instance.Sound.served {inst inst' : Instance α} {redis redis' : Redis} {e : Event}
    (h : inst.Sound) (he : Separate (inst.server redis) e)
    (hpending : inst'.pending ⊆ inst.pending)
    (hstep : Chat.step lib (inst.server redis) e = some (inst'.server redis')) : inst'.Sound where
  consistent := ((h.consistent redis).step lib hstep).server
  allRegistered := fun _ =>
    have hreg : AllRegistered (inst'.server redis') :=
      (h.allRegistered redis).step (h.consistent redis) he hstep
    hreg
  routable := fun m hm => h.routable m (hpending hm)

theorem sound_step (hs : (s.instances i).Sound) (hl : Apart s l)
    (h : Deployment.step lib s l = some s') : (s'.instances i).Sound := by
  cases step_moves h i with
  | publish channel message heq =>
    rw [heq]
    refine ⟨hs.consistent, hs.allRegistered, fun m hm => ?_⟩
    rcases List.mem_append.1 hm with hm | hm
    · exact hs.routable m hm
    · rw [List.mem_singleton.1 hm]
      exact hl
  | pmessage channel message hpending hstep =>
    have hmem : (channel, message) ∈ (s.instances i).pending :=
      hpending ▸ List.mem_cons_self
    have hseparate : Separate ((s.instances i).server s.redis) (.pmessage channel message) :=
      hs.routable _ hmem
    exact hs.served hseparate (hpending ▸ List.subset_cons_self _ _) hstep
  | missed m hpending hservice hlive =>
    obtain ⟨hcons, hreg, hroutable⟩ := hs
    rw [hpending] at hroutable
    generalize s'.instances i = inst' at *
    obtain ⟨service', live', pending'⟩ := inst'
    cases hservice
    cases hlive
    exact ⟨hcons, hreg, fun m hm => hroutable m (List.mem_cons_of_mem _ hm)⟩
  | request e he hpending hstep =>
    exact hs.served hl (hpending ▸ List.Subset.refl _) hstep
  | other l hl heq =>
    rw [heq]
    exact hs

theorem sound_run {ls : List (Label ι)} (hs : ∀ i, (s.instances i).Sound)
    (hmeets : Meets (Deployment.step lib) Apart s ls)
    (h : run (Deployment.step lib) s ls = some t) (i : ι) : (t.instances i).Sound := by
  have hkeep : ∀ (s : Deployment ι α) l s', (∀ i, (s.instances i).Sound) → Apart s l →
      Deployment.step lib s l = some s' → ∀ i, (s'.instances i).Sound := by
    intro s l s' hs hl hstep i
    exact sound_step (hs i) hl hstep
  exact invariant_of_meets hkeep hs hmeets t (Visits.of_run h) i

/-! ### One stream -/

/-- The payloads that the stream of `c` has emitted. -/
def Instance.received (inst : Instance α) (c : Connection) : List α :=
  Chat.received (inst.server ⟨[], []⟩) c

/-- The messages as the events of one server. -/
def pushed (ms : List (String × String)) : List Event :=
  ms.map fun m => .pmessage m.1 m.2

/-- With the labels, Redis has brought `brought` to the instance, and the stream of `c` has emitted
`got` of it: no payload for another stream, none twice, and all in order; if no message was missed,
without gaps; and if besides `c` is still open, all that was for it. -/
structure Carried (lib : External α) (c : Connection) (ls : List (Label ι)) (i : ι)
    (inst inst' : Instance α) (brought : List (String × String)) (got : List α) : Prop where
  taken : inst.pending ++ publications ls = brought ++ inst'.pending
  received : inst'.received c = inst.received c ++ got
  sublist : got.Sublist (published lib c (pushed brought))
  in_order : .missed i ∉ ls → got <+: published lib c (pushed brought)
  complete : .missed i ∉ ls → c ∈ inst'.live → got = published lib c (pushed brought)

theorem published_pushed_cons (m : String × String) (ms : List (String × String)) :
    published lib c (pushed (m :: ms)) =
      published lib c [.pmessage m.1 m.2] ++ published lib c (pushed ms) := by
  have hne : Event.pmessage m.1 m.2 ≠ .disconnect c := nofun
  exact published_cons hne _

theorem published_pushed_append (ms ms' : List (String × String)) :
    published lib c (pushed (ms ++ ms')) =
      published lib c (pushed ms) ++ published lib c (pushed ms') := by
  induction ms with
  | nil => rfl
  | cons m ms ih =>
    rw [List.cons_append, published_pushed_cons, ih, published_pushed_cons, List.append_assoc]

theorem published_of_request {e : Event} (he : ∀ channel message, e ≠ .pmessage channel message) :
    published lib c [e] = [] := by
  cases e with
  | pmessage channel message => exact absurd rfl (he channel message)
  | disconnect d => exact ite_self _
  | _ => rfl

section Compose

variable {inst mid inst' : Instance α} {ls : List (Label ι)} {b b' : List (String × String)}
  {g g' : List α}

omit [DecidableEq ι] in
theorem Carried.trans (h : Carried lib c [l] i inst mid b g) (hc : c ∈ mid.live)
    (h' : Carried lib c ls i mid inst' b' g') :
    Carried lib c (l :: ls) i inst inst' (b ++ b') (g ++ g') where
  taken := by
    rw [publications_cons, ← List.append_assoc, h.taken, List.append_assoc, h'.taken,
      List.append_assoc]
  received := by rw [h'.received, h.received, List.append_assoc]
  sublist := by
    rw [published_pushed_append]
    exact h.sublist.append h'.sublist
  in_order := by
    intro hmissed
    obtain ⟨hl, hls⟩ := not_or.1 (mt List.mem_cons.2 hmissed)
    rw [published_pushed_append, h.complete (mt List.mem_singleton.1 hl) hc]
    exact (List.prefix_append_right_inj _).2 (h'.in_order hls)
  complete := by
    intro hmissed hc'
    obtain ⟨hl, hls⟩ := not_or.1 (mt List.mem_cons.2 hmissed)
    rw [published_pushed_append, h.complete (mt List.mem_singleton.1 hl) hc, h'.complete hls hc']

omit [DecidableEq ι] in
/-- After its end a stream emits nothing. -/
theorem Carried.trans_gone (h : Carried lib c [l] i inst mid b g)
    (hbrought : mid.pending ++ publications ls = b' ++ inst'.pending)
    (hreceived : inst'.received c = mid.received c) (hc : c ∉ inst'.live) :
    Carried lib c (l :: ls) i inst inst' (b ++ b') g where
  taken := by
    rw [publications_cons, ← List.append_assoc, h.taken, List.append_assoc, hbrought,
      List.append_assoc]
  received := hreceived.trans h.received
  sublist := by
    rw [published_pushed_append]
    exact h.sublist.trans (List.sublist_append_left _ _)
  in_order := by
    intro hmissed
    rw [published_pushed_append]
    exact (h.in_order fun hl => hmissed (List.mem_cons.2 (Or.inl (List.mem_singleton.1 hl)))).trans
      (List.prefix_append _ _)
  complete := fun _ hc' => absurd hc' hc

end Compose

theorem carried_step (hs : (s.instances i).Sound) (hl : Apart s l) (hc : c ∈ (s.instances i).live)
    (h : Deployment.step lib s l = some s') :
    ∃ b g, Carried lib c [l] i (s.instances i) (s'.instances i) b g ∧
      (c ∈ (s'.instances i).live ∨ Gone ((s'.instances i).server ⟨[], []⟩) c) := by
  cases step_moves h i with
  | publish channel message heq =>
    refine ⟨[], [], ⟨?_, ?_, List.Sublist.refl _, fun _ => List.prefix_rfl, fun _ _ => rfl⟩, ?_⟩
    · rw [heq]; rfl
    · rw [heq]; exact (List.append_nil _).symm
    · rw [heq]; exact Or.inl hc
  | pmessage channel message hpending hstep =>
    have hmem : (channel, message) ∈ (s.instances i).pending := hpending ▸ List.mem_cons_self
    have hseparate : Separate ((s.instances i).server s.redis) (.pmessage channel message) :=
      hs.routable _ hmem
    obtain ⟨hrecv, ⟨he, -⟩ | ⟨-, hlive⟩⟩ :=
      live_step (hs.consistent s.redis) (hs.allRegistered s.redis) hc hseparate hstep
    · cases he
    · refine ⟨[(channel, message)], published lib c [.pmessage channel message],
        ⟨?_, hrecv, List.Sublist.refl _, fun _ => List.prefix_rfl, fun _ _ => rfl⟩, Or.inl hlive⟩
      rw [hpending]
      exact List.append_nil _
  | missed m hpending hservice hlive =>
    refine ⟨[m], [], ⟨?_, ?_, List.nil_sublist _, ?_, ?_⟩, Or.inl (hlive ▸ hc)⟩
    · rw [hpending]
      exact List.append_nil _
    · rw [List.append_nil]
      unfold Instance.received Chat.received Instance.server
      rw [hservice]
    · exact fun hmissed => absurd (List.mem_singleton_self _) hmissed
    · exact fun hmissed => absurd (List.mem_singleton_self _) hmissed
  | request e he hpending hstep =>
    obtain ⟨hrecv, hnext⟩ :=
      live_step (hs.consistent s.redis) (hs.allRegistered s.redis) hc hl hstep
    rw [published_of_request he] at hrecv
    refine ⟨[], [], ⟨?_, hrecv, List.Sublist.refl _, fun _ => List.prefix_rfl, fun _ _ => rfl⟩, ?_⟩
    · rw [hpending]
      exact List.append_nil _
    · rcases hnext with ⟨-, hgone⟩ | ⟨-, hlive⟩
      · exact Or.inr ⟨hgone.lt, hgone.ne⟩
      · exact Or.inl hlive
  | other l hl heq =>
    refine ⟨[], [], ⟨?_, ?_, List.Sublist.refl _, fun _ => List.prefix_rfl, fun _ _ => rfl⟩, ?_⟩
    · rw [heq, hl]; exact List.append_nil _
    · rw [heq]; exact (List.append_nil _).symm
    · rw [heq]; exact Or.inl hc

theorem gone_move (hs : (s.instances i).Sound)
    (hg : Gone ((s.instances i).server ⟨[], []⟩) c) (h : Deployment.step lib s l = some s') :
    Gone ((s'.instances i).server ⟨[], []⟩) c ∧
      (s'.instances i).received c = (s.instances i).received c ∧
      ∃ b, (s.instances i).pending ++ publications [l] = b ++ (s'.instances i).pending := by
  have hg' : Gone ((s.instances i).server s.redis) c := ⟨hg.lt, hg.ne⟩
  cases step_moves h i with
  | publish channel message heq =>
    rw [heq]
    exact ⟨⟨hg.lt, hg.ne⟩, rfl, [], rfl⟩
  | pmessage channel message hpending hstep =>
    obtain ⟨hgone, hrecv⟩ := gone_step (hs.consistent s.redis) hg' hstep
    refine ⟨⟨hgone.lt, hgone.ne⟩, hrecv, [(channel, message)], ?_⟩
    rw [hpending]
    exact List.append_nil _
  | missed m hpending hservice hlive =>
    refine ⟨⟨?_, ?_⟩, ?_, [m], ?_⟩
    · rw [Instance.server, hservice]; exact hg.lt
    · rw [Instance.server, hlive]; exact hg.ne
    · unfold Instance.received Chat.received Instance.server
      rw [hservice]
    · rw [hpending]; exact List.append_nil _
  | request e he hpending hstep =>
    obtain ⟨hgone, hrecv⟩ := gone_step (hs.consistent s.redis) hg' hstep
    refine ⟨⟨hgone.lt, hgone.ne⟩, hrecv, [], ?_⟩
    rw [hpending]
    exact List.append_nil _
  | other l hl heq =>
    rw [heq, hl]
    exact ⟨hg, rfl, [], List.append_nil _⟩

theorem gone_moves {ls : List (Label ι)} (hs : ∀ j, (s.instances j).Sound)
    (hmeets : Meets (Deployment.step lib) Apart s ls)
    (hg : Gone ((s.instances i).server ⟨[], []⟩) c)
    (h : run (Deployment.step lib) s ls = some t) :
    Gone ((t.instances i).server ⟨[], []⟩) c ∧
      (t.instances i).received c = (s.instances i).received c ∧
      ∃ b, (s.instances i).pending ++ publications ls = b ++ (t.instances i).pending := by
  induction ls generalizing s with
  | nil =>
    cases h
    exact ⟨hg, rfl, [], List.append_nil _⟩
  | cons l ls ih =>
    obtain ⟨u, hu, hrun⟩ := (run_cons_eq_some _).1 h
    obtain ⟨hl, hmeets'⟩ := hmeets u hu
    obtain ⟨hgone, hrecv, b, hb⟩ := gone_move (hs i) hg hu
    obtain ⟨hgone', hrecv', b', hb'⟩ :=
      ih (fun j => sound_step (hs j) hl hu) hmeets' hgone hrun
    refine ⟨hgone', hrecv'.trans hrecv, b ++ b', ?_⟩
    rw [publications_cons, ← List.append_assoc, hb, List.append_assoc, hb', List.append_assoc]

theorem carried_run {ls : List (Label ι)} (hs : ∀ j, (s.instances j).Sound)
    (hmeets : Meets (Deployment.step lib) Apart s ls) (hc : c ∈ (s.instances i).live)
    (h : run (Deployment.step lib) s ls = some t) :
    ∃ b g, Carried lib c ls i (s.instances i) (t.instances i) b g := by
  induction ls generalizing s with
  | nil =>
    cases h
    exact ⟨[], [], List.append_nil _, (List.append_nil _).symm, List.Sublist.refl _,
      fun _ => List.prefix_rfl, fun _ _ => rfl⟩
  | cons l ls ih =>
    obtain ⟨u, hu, hrun⟩ := (run_cons_eq_some _).1 h
    obtain ⟨hl, hmeets'⟩ := hmeets u hu
    have hs' : ∀ j, (u.instances j).Sound := fun j => sound_step (hs j) hl hu
    obtain ⟨b, g, hcarried, hlive | hgone⟩ := carried_step (hs i) hl hc hu
    · obtain ⟨b', g', hcarried'⟩ := ih hs' hmeets' hlive hrun
      exact ⟨_, _, hcarried.trans hlive hcarried'⟩
    · obtain ⟨hgone', hrecv, b', hb'⟩ := gone_moves hs' hmeets' hgone hrun
      exact ⟨_, _, hcarried.trans_gone hb' hrecv fun hc' => hgone'.ne c hc' rfl⟩

end Instances

/-! ### Runs -/

open Deployment

/-- **A stream that an instance has opened emits what Redis brings for it**, whatever happens on the
other instances: `b` is what the instance has taken off its subscription since. -/
theorem streamed_of_run (pre post : List (Label ι)) (l : Label ι)
    (hmeets : Meets (Deployment.step lib) Apart boot (pre ++ l :: post)) (s u t : Deployment ι α)
    (hs : run (Deployment.step lib) boot pre = some s) (hu : Deployment.step lib s l = some u)
    (ht : run (Deployment.step lib) u post = some t) (i : ι) (c : Connection)
    (hnew : c ∉ (s.instances i).live) (hc : c ∈ (u.instances i).live) :
    ∃ b, Carried lib c post i (u.instances i) (t.instances i) b ((t.instances i).received c) := by
  have hsound := sound_run (fun _ => sound_init) hmeets.of_append hs
  obtain ⟨hl, hmeets'⟩ := (hmeets.of_run hs) u hu
  obtain ⟨b, g, hcarried⟩ := carried_run (fun j => sound_step (hsound j) hl hu) hmeets' hc ht
  have hnone : (u.instances i).received c = [] := by
    have hopened : ∀ e, Chat.step lib ((s.instances i).server s.redis) e =
        some ((u.instances i).server u.redis) →
          Chat.received ((u.instances i).server u.redis) c = [] :=
      fun _ hstep => received_of_opened hstep hnew hc
    cases step_moves hu i with
    | pmessage channel message hpending hstep => exact hopened _ hstep
    | request e he hpending hstep => exact hopened _ hstep
    | publish channel message heq => exact absurd (by rwa [heq] at hc) hnew
    | missed m hpending hservice hlive => exact absurd (hlive ▸ hc) hnew
    | other l hl heq => exact absurd (heq ▸ hc) hnew
  have hgot : (t.instances i).received c = g := by rw [hcarried.received, hnone, List.nil_append]
  exact ⟨b, hgot.symm ▸ hcarried⟩

/-- **The answers to a question go to the stream for which an instance has accepted it**, the only
one of this instance on their channel. -/
theorem answered_of_run (pre post : List (Label ι)) (i : ι) (dto : CreateChatDto)
    (env : DispatchEnv)
    (hmeets : Meets (Deployment.step lib) Apart boot
      (pre ++ .request i (.dispatchJob dto env) :: post)) (s t : Deployment ι α)
    (hs : run (Deployment.step lib) boot pre = some s) (jobId : String)
    (hok : ((s.instances i).service.dispatchJob lib.sanitize s.redis dto env).1 = .ok jobId)
    (ht : run (Deployment.step lib) s (.request i (.dispatchJob dto env) :: post) = some t) :
    ∃ c ∈ (s.instances i).live,
      (∀ d ∈ (s.instances i).live, streamChannel d.uuid d.sessionId =
        streamChannel dto.uuid dto.sessionId ↔ d = c) ∧
      ∃ b g, Carried lib c (.request i (.dispatchJob dto env) :: post) i (s.instances i)
        (t.instances i) b g := by
  have hsound := sound_run (fun _ => sound_init) hmeets.of_append hs
  have hactive : (s.instances i).service.hasActiveStream dto.uuid dto.sessionId = true := by
    by_contra hinactive
    rw [ChatService.dispatchJob, if_pos (Bool.not_eq_true _ ▸ hinactive)] at hok
    cases hok
  obtain ⟨ref, hlookup⟩ := ChatService.hasActiveStream_iff.1 hactive
  obtain ⟨c, hc, rfl, hkey⟩ := ((hsound i).consistent s.redis).registered_live _ _ hlookup
  refine ⟨c, hc, fun d hd => ?_, carried_run hsound (hmeets.of_run hs) hc ht⟩
  rw [eq_comm, streamChannel, ← hkey, streamChannel_eq_iff]
  refine ⟨fun hck => ?_, by rintro rfl; rfl⟩
  have hd' := (hsound i).allRegistered s.redis d hd
  have hc' := (hsound i).allRegistered s.redis c hc
  rw [Registered, ← hck] at hd'
  exact ((hsound i).consistent s.redis).eq_of_subject hd hc
    (Option.some.inj (hd'.symm.trans hc'))

/-! The tab of a visitor reconnects to the green instance while the blue one still has its stream,
and the blue one misses the answer. -/

inductive Colour
  | blue
  | green
  deriving DecidableEq

def tabQuestion : CreateChatDto :=
  { Jobs.questionDto with
    sessionId := "tab-1"
    uuid := "visitor-1"
    sessionId_ne := reconnectRequest.sessionId_ne
    uuid_ne := reconnectRequest.targetUuid_ne }

/-- The stream of the tab, on each instance the first. -/
def tabStream : Connection := ⟨"visitor-1", "tab-1", 0⟩

def blueConnect : Label Colour := .request .blue (.connect reconnectRequest)

def greenConnect : Label Colour := .request .green (.connect reconnectRequest)

def greenAnswer : List (Label Colour) :=
  [.publish "chat:stream:visitor-1-tab-1" "{}", .missed .blue, .pmessage .green]

def greenRun : List (Label Colour) :=
  .request .green (.dispatchJob tabQuestion ⟨"j0", "t0", true, true⟩) :: greenAnswer

theorem apart_greenRun :
    Meets (Deployment.step emptyObject) Apart boot ([blueConnect] ++ greenConnect :: greenRun) := by
  intro s₁ h₁
  refine ⟨fun _ => ⟨fun d hd => absurd hd List.not_mem_nil, by decide⟩, fun s₂ h₂ => ?_⟩
  cases Option.some.inj h₁
  refine ⟨fun _ => ⟨fun d hd => absurd hd List.not_mem_nil, by decide⟩, fun s₃ h₃ => ?_⟩
  refine ⟨trivial, fun s₄ h₄ => ⟨⟨"visitor-1-tab-1", by decide, rfl⟩, fun s₅ h₅ => ?_⟩⟩
  exact ⟨trivial, fun s₆ h₆ => ⟨trivial, trivial⟩⟩

theorem streamed_greenRun : ∃ s u t b,
    run (Deployment.step emptyObject) boot [blueConnect] = some s ∧
      Deployment.step emptyObject s greenConnect = some u ∧
      run (Deployment.step emptyObject) u greenRun = some t ∧
      (t.instances .green).received tabStream = [()] ∧
      (t.instances .blue).received tabStream = [] ∧
      Carried emptyObject tabStream greenRun .green (u.instances .green) (t.instances .green) b
        [()] := by
  obtain ⟨b, hb⟩ := streamed_of_run emptyObject [blueConnect] greenRun greenConnect apart_greenRun
    _ _ _ rfl rfl rfl .green tabStream List.not_mem_nil (List.mem_singleton_self _)
  exact ⟨_, _, _, b, rfl, rfl, rfl, rfl, rfl, hb⟩

theorem answered_greenRun : ∃ s t,
    run (Deployment.step emptyObject) boot [blueConnect, greenConnect] = some s ∧
      run (Deployment.step emptyObject) s greenRun = some t ∧
      ∃ c ∈ (s.instances .green).live, ∃ b g,
        Carried emptyObject c greenRun .green (s.instances .green) (t.instances .green) b g := by
  obtain ⟨c, hc, -, b, g, hcarried⟩ := answered_of_run emptyObject [blueConnect, greenConnect]
    greenAnswer .green tabQuestion ⟨"j0", "t0", true, true⟩ apart_greenRun _ _ rfl "j0" rfl rfl
  exact ⟨_, _, rfl, rfl, c, hc, b, g, hcarried⟩

end ProtostarNest.Chat
