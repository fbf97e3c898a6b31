import ProtostarNest.App.Callers
import ProtostarNest.Knowledge.Preserved

/-!
# What a user keeps while others are served

A user without a request at the server, of whom no arriving request bears a token, loses nothing,
while other users upload, replace and delete, and the dispatcher and the worker go on.

* `Absent u`: no request at the server works for `u`;
* `Others u`: the label is not the arrival of a request with a token of `u`;
* `preserved_of_run`.
-/

namespace ProtostarNest.App

open Transition

variable {α : Type*} {cfg : Settings α}

/-- The user of a request between the guards and its handler. -/
def Stage.user : Stage → Option Auth.PartialUser
  | .passed user => user
  | _ => none

/-- The user of a request between the interceptor and its handler. -/
def clientUser : Knowledge.Client → Option Knowledge.User
  | .checked r => r.user
  | _ => none

/-- No request works for the user `u`, and none that was let in will. -/
def Absent (u : String) (s : Server cfg) : Prop :=
  (∀ r ∈ s.requests, ∀ user ∈ r.2.user, user.id ≠ u) ∧
    (∀ op ∈ s.knowledge.sys.ops, ∀ v ∈ op.pc.user, v.id ≠ u) ∧
      ∀ client ∈ s.knowledge.clients, ∀ v ∈ clientUser client, v.id ≠ u

instance (u : String) (s : Server cfg) : Decidable (Absent u s) := inferInstanceAs (Decidable (_ ∧ _))

/-- No request with a token of the user `u` arrives. -/
def Others (u : String) : Event cfg → Prop
  | .arrive req => ∀ token ∈ req.token, ∀ payload ∈ cfg.auth.verify token req.now, payload.sub ≠ u
  | _ => True

instance (u : String) : (e : Event cfg) → Decidable (Others u e)
  | .arrive req => inferInstanceAs (Decidable (∀ token ∈ req.token,
      ∀ payload ∈ cfg.auth.verify token req.now, payload.sub ≠ u))
  | .enter _ => instDecidableTrue
  | .auth _ _ => instDecidableTrue
  | .knowledge _ _ => instDecidableTrue
  | .handle _ => instDecidableTrue
  | .disconnect _ => instDecidableTrue
  | .pmessage _ _ => instDecidableTrue
  | .monitor _ => instDecidableTrue
  | .dispatchPendingTasks => instDecidableTrue

/-- Neither an object key nor the id of a row is generated twice. -/
def Unrepeated (s : Server cfg) : Event cfg → Prop
  | .knowledge i env => Knowledge.Unrepeated s.knowledge.sys (.resume i env)
  | _ => True

instance (s : Server cfg) : (e : Event cfg) → Decidable (Unrepeated s e)
  | .knowledge i env =>
      inferInstanceAs (Decidable (Knowledge.Unrepeated s.knowledge.sys (.resume i env)))
  | .arrive _ => instDecidableTrue
  | .enter _ => instDecidableTrue
  | .auth _ _ => instDecidableTrue
  | .handle _ => instDecidableTrue
  | .disconnect _ => instDecidableTrue
  | .pmessage _ _ => instDecidableTrue
  | .monitor _ => instDecidableTrue
  | .dispatchPendingTasks => instDecidableTrue

section Step

variable {s s' : Server cfg} {e : Event cfg} {u : String}

/-- The stores move by steps of the knowledge feature. -/
theorem sys_step (h : step s e = some s') :
    s'.knowledge.sys = s.knowledge.sys ∨ ∃ se,
      Knowledge.step cfg.knowledge s.knowledge.sys se = some s'.knowledge.sys ∧
        ∀ i env, se = .resume i env → e = .knowledge i env := by
  rcases knowledge_step h with hsame | ⟨ke, hcause, hstep⟩
  · exact Or.inl (by rw [hsame])
  · refine (Knowledge.Http.step_sys hstep).imp_right ?_
    rintro ⟨se, hse, hresume⟩
    refine ⟨se, hse, fun i env heq => ?_⟩
    obtain rfl := hresume i env heq
    generalize hke : Knowledge.HttpEvent.resume i env = ke at hcause
    cases hcause with
    | resume i env => cases hke; rfl
    | sent p req user r hp hcall => unfold knowledgeEvent at hke; split_ifs at hke
    | handle c => cases hke
    | cron => cases hke

theorem unrepeated_sys {se : Knowledge.Event} (hfresh : Unrepeated s e)
    (hresume : ∀ i env, se = .resume i env → e = .knowledge i env) :
    Knowledge.Unrepeated s.knowledge.sys se := by
  cases se with
  | request r => exact ⟨trivial, trivial⟩
  | resume i env =>
    obtain rfl := hresume i env rfl
    exact hfresh

theorem keyed_owned (hs : Knowledge.Keyed s.knowledge.sys ∧ Knowledge.Owned s.knowledge.sys)
    (hfresh : Unrepeated s e) (h : step s e = some s') :
    Knowledge.Keyed s'.knowledge.sys ∧ Knowledge.Owned s'.knowledge.sys := by
  rcases sys_step h with hsame | ⟨se, hse, hresume⟩
  · rw [hsame]
    exact hs
  · exact Knowledge.keyed_owned_step hs (unrepeated_sys hfresh hresume) hse

/-! ### Absence -/

/-- A request of another user stays one. -/
theorem absent_requests (hs : Absent u s) (hothers : Others u e) (h : step s e = some s') :
    ∀ r ∈ s'.requests, ∀ user ∈ r.2.user, user.id ≠ u := by
  rintro ⟨req, stage⟩ hr user huser
  obtain ⟨p, hp⟩ := List.mem_iff_getElem?.1 hr
  rcases requests_step h hp with hold | ⟨rfl, rfl⟩ | ⟨user', -, -, rfl | ⟨e, rfl⟩⟩
  · exact hs.1 (req, stage) (List.mem_of_getElem? hold) user huser
  · unfold arrival at huser
    split at huser
    · cases huser
    · rename_i user' hguards
      obtain rfl : user' = some user := huser
      obtain ⟨-, token, payload, htoken, hverify, rfl⟩ := jwtAuthGuard_some (guards_ok hguards).2.1
      exact hothers token htoken payload hverify
  · cases huser
  · cases huser

/-- The same in the terms of the knowledge feature. -/
theorem absent_iff : Absent u s ↔ (∀ r ∈ s.requests, ∀ user ∈ r.2.user, user.id ≠ u) ∧
    s.knowledge.Holds (fun v => v.id ≠ u) (fun _ _ => True) (fun _ => True) := by
  refine and_congr_right fun _ => ⟨fun ⟨hops, hclients⟩ => ⟨fun i op hop => ?_, fun c r hc => ?_⟩,
    fun hholds => ⟨fun op hop => ?_, fun client hclient v hv => ?_⟩⟩
  · exact ⟨hops op (List.mem_of_getElem? hop), fun _ _ _ _ => trivial, fun _ _ => trivial⟩
  · exact ⟨hclients _ (List.mem_of_getElem? hc), fun _ _ _ _ => trivial, fun _ _ => trivial⟩
  · obtain ⟨i, hi⟩ := List.mem_iff_getElem?.1 hop
    exact (hholds.ops i op hi).user
  · obtain ⟨c, hc⟩ := List.mem_iff_getElem?.1 hclient
    cases client with
    | checked r => exact (hholds.clients c r hc).user v hv
    | busy e => cases hv
    | handled i => cases hv

theorem absent_step (hs : Absent u s) (hothers : Others u e) (h : step s e = some s') :
    Absent u s' := by
  refine absent_iff.2 ⟨absent_requests hs hothers h, ?_⟩
  obtain ⟨hrequests, hholds⟩ := absent_iff.1 hs
  rcases knowledge_step h with hsame | ⟨ke, hcause, hstep⟩
  · rw [hsame]
    exact hholds
  · refine hholds.step (fun r hr => ?_) hstep
    have hsourced := sourced_of_cause (P := fun v => v.id ≠ u) (R := fun _ => True)
      (fun p req user hp => hrequests _ (List.mem_of_getElem? hp) user rfl) (fun _ _ => trivial)
      hcause hr
    exact ⟨hsourced.user, fun _ _ _ _ => trivial, fun _ _ => trivial⟩

end Step

/-- **A user of whom no request is at the server and none arrives keeps all documents, but for what
the dispatcher and the worker say about them, and the objects they name**, whatever requests of
others are served. -/
theorem preserved_of_run (cfg : Settings α) (u : String) (es fs : List (Event cfg))
    (s t : Server cfg) (hfresh : Meets step Unrepeated (boot cfg) (es ++ fs))
    (hs : run step (boot cfg) es = some s) (habsent : Absent u s) (hothers : ∀ e ∈ fs, Others u e)
    (ht : run step s fs = some t) :
    Knowledge.Preserved ⟨u⟩ s.knowledge.sys.world t.knowledge.sys.world := by
  have hkeep : ∀ (s : Server cfg) (e : Event cfg) (t : Server cfg),
      Knowledge.Keyed s.knowledge.sys ∧ Knowledge.Owned s.knowledge.sys → Unrepeated s e →
        step s e = some t → Knowledge.Keyed t.knowledge.sys ∧ Knowledge.Owned t.knowledge.sys :=
    fun _ _ _ hs hfresh h => keyed_owned hs hfresh h
  have hkeyed : Knowledge.Keyed s.knowledge.sys ∧ Knowledge.Owned s.knowledge.sys :=
    invariant_of_meets hkeep ⟨Knowledge.keyed_boot, Knowledge.owned_boot⟩ hfresh.of_append s
      (Visits.of_run hs)
  replace hfresh := hfresh.of_run hs
  clear hs
  induction fs generalizing s with
  | nil => cases ht; exact .refl _ _
  | cons e fs ih =>
    obtain ⟨s₁, hs₁, ht⟩ := (run_cons_eq_some step).1 ht
    obtain ⟨hfresh₁, hfresh⟩ := hfresh s₁ hs₁
    have hothers₁ := hothers e List.mem_cons_self
    have hrest := ih s₁ (absent_step habsent hothers₁ hs₁)
      (fun e he => hothers e (List.mem_cons_of_mem _ he)) ht (keyed_owned hkeyed hfresh₁ hs₁) hfresh
    refine Knowledge.Preserved.trans ?_ hrest
    rcases sys_step hs₁ with hsame | ⟨se, hse, hresume⟩
    · rw [hsame]
      exact .refl _ _
    · exact Knowledge.preserved_step hkeyed.1 hkeyed.2 (unrepeated_sys hfresh₁ hresume)
        (fun i op hop => ((absent_iff.1 habsent).2.ops i op hop).user) hse

/-- The dispatcher and the worker treat the first upload. -/
def treatRun : List (Event exampleSettings) := reportRun.drop uploadRun.length

theorem preserved_treatRun : ∃ s t, run step (boot exampleSettings) uploadRun = some s ∧
    run step s treatRun = some t ∧
    (s.knowledge.sys.world.rowsOf ⟨"u0"⟩).map Knowledge.KnowledgeDoc.id = ["d0"] ∧
    Knowledge.Preserved ⟨"u0"⟩ s.knowledge.sys.world t.knowledge.sys.world := by
  have hrun : (run step (boot exampleSettings) uploadRun).map (fun s =>
      (decide (Absent "u0" s), (s.knowledge.sys.world.rowsOf ⟨"u0"⟩).map Knowledge.KnowledgeDoc.id,
        (run step s treatRun).isSome)) = some (true, ["d0"], true) := by decide +kernel
  obtain ⟨s, hs, hvalues⟩ := Option.map_eq_some_iff.1 hrun
  obtain ⟨habsent, hrows⟩ := Prod.mk.inj hvalues
  obtain ⟨hids, hsome⟩ := Prod.mk.inj hrows
  obtain ⟨t, ht⟩ := Option.isSome_iff_exists.1 hsome
  exact ⟨s, t, hs, ht, hids, preserved_of_run exampleSettings "u0" uploadRun treatRun s t
    (by decide +kernel) hs (of_decide_eq_true habsent) (by decide +kernel) ht⟩

end ProtostarNest.App
