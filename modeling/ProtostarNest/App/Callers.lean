import ProtostarNest.App.Server
import ProtostarNest.Auth.Roles
import ProtostarNest.Knowledge.ObjectKeys
import ProtostarNest.Knowledge.Provenance
import ProtostarNest.Knowledge.Reports

/-!
# Who calls the knowledge feature, and with what

The knowledge feature believes what the guards and the interceptors of its routes let through.

* `Issued`: tokens are issued to registered users;
* `Known`: a registered user whose token a request has borne;
* `callers_of_run`: the feature works for such users only, and all documents are theirs, so that
  the foreign key of a document is never violated;
* `reported_of_run`: what a row says about the work on it was reported under the secret of the
  webhook;
* `markdown_of_run`: all documents and all objects are Markdown files of at most 50 MB.
-/

namespace ProtostarNest.App

open Transition

/-! ### Tokens -/

section Tokens

variable {cfg : Auth.Config} {s s' : Auth.Sys cfg} {e : Auth.Event cfg}

structure Issued (s : Auth.Sys cfg) : Prop where
  found : ∀ pc ∈ s.ops, ∀ user, pc.found = some user → user ∈ s.users.rows
  issued : ∀ p ∈ s.issued, ∃ user ∈ s.users.rows, p.2 = user.payload

/-- Users and tokens stay. -/
theorem auth_mono (h : Auth.step s e = some s') :
    s.users.rows ⊆ s'.users.rows ∧ s.issued ⊆ s'.issued := by
  cases e with
  | signup dto => obtain rfl := Option.some.inj h; exact ⟨List.Subset.refl _, List.Subset.refl _⟩
  | signin dto => obtain rfl := Option.some.inj h; exact ⟨List.Subset.refl _, List.Subset.refl _⟩
  | resume i env =>
    obtain ⟨pc, hpc, h⟩ := Option.bind_eq_some_iff.1 h
    obtain ⟨⟨s₁, pc'⟩, hadv, rfl⟩ := Option.map_eq_some_iff.1 h
    obtain ⟨hrows, -, hissued, -⟩ := (Auth.advance_sound hadv).mono
    exact ⟨hrows, hissued⟩
  | authenticate token now =>
    simp only [Auth.step] at h
    split at h <;> obtain rfl := Option.some.inj h <;>
      exact ⟨List.Subset.refl _, List.Subset.refl _⟩

theorem Issued.arrive (hs : Issued s) {pc : Auth.Pc cfg} (hpc : pc.found = none) :
    Issued { s with ops := s.ops ++ [pc] } := by
  refine ⟨fun pc' hpc' user huser => ?_, hs.issued⟩
  rcases List.mem_append.1 hpc' with hpc' | hpc'
  · exact hs.found pc' hpc' user huser
  · rw [List.mem_singleton.1 hpc', hpc] at huser
    cases huser

theorem Issued.step (hs : Issued s) (h : Auth.step s e = some s') : Issued s' := by
  cases e with
  | signup dto => obtain rfl := Option.some.inj h; exact hs.arrive rfl
  | signin dto => obtain rfl := Option.some.inj h; exact hs.arrive rfl
  | resume i env =>
    obtain ⟨pc, hpc, h⟩ := Option.bind_eq_some_iff.1 h
    obtain ⟨⟨s₁, pc'⟩, hadv, rfl⟩ := Option.map_eq_some_iff.1 h
    have hadv := Auth.advance_sound hadv
    have hmem := List.mem_of_getElem? hpc
    refine ⟨fun pc₁ hpc₁ user huser => ?_, fun p hp =>
      hadv.issued_payload hs.issued (hs.found pc hmem) hp⟩
    rcases Auth.mem_set_cases hpc₁ with rfl | hpc₁
    · exact hadv.mono.1 (hadv.found_mem huser)
    · exact hadv.mono.1 (hs.found pc₁ hpc₁ user huser)
  | authenticate token now =>
    simp only [Auth.step] at h
    split at h <;> obtain rfl := Option.some.inj h <;> exact ⟨hs.found, hs.issued⟩

end Tokens

/-! ### Known users -/

variable {α : Type*} {cfg : Settings α}

/-- No token is accepted that was not issued. -/
def Genuine (s : Server cfg) : Event cfg → Prop
  | .arrive req => ∀ token ∈ req.token, ∀ payload ∈ cfg.auth.verify token req.now,
      (token, payload) ∈ s.auth.issued
  | _ => True

instance (s : Server cfg) : (e : Event cfg) → Decidable (Genuine s e)
  | .arrive req => inferInstanceAs (Decidable (∀ token ∈ req.token,
      ∀ payload ∈ cfg.auth.verify token req.now, (token, payload) ∈ s.auth.issued))
  | .enter _ => instDecidableTrue
  | .auth _ _ => instDecidableTrue
  | .knowledge _ _ => instDecidableTrue
  | .handle _ => instDecidableTrue
  | .disconnect _ => instDecidableTrue
  | .pmessage _ _ => instDecidableTrue
  | .monitor _ => instDecidableTrue
  | .dispatchPendingTasks => instDecidableTrue

/-- A registered user, and a request that has borne a token issued to that user. -/
def Known (s : Server cfg) (v : Knowledge.User) : Prop :=
  ∃ user ∈ s.auth.users.rows, user.id = v.id ∧ ∃ req ∈ s.requests.map Prod.fst,
    ∃ token, req.token = some token ∧ (token, user.payload) ∈ s.auth.issued

/-- A request has reported this under the secret of the webhook. -/
def Signed (s : Server cfg) (dto : Knowledge.RagWebhookDto) : Prop :=
  ∃ req ∈ s.requests.map Prod.fst, ∃ answers,
    req.route = .handleWebhook dto (some cfg.webhookSecret) answers

/-- The file has passed the checks of `MulterModule`. -/
def Checked (cfg : Settings α) (f : Knowledge.MulterFile) : Prop := cfg.checkFile f = .ok ()

structure Callers (s : Server cfg) : Prop where
  issued : Issued s.auth
  passed : ∀ (p : ℕ) (req : HttpRequest cfg) (u : Auth.PartialUser),
    s.requests[p]? = some (req, .passed (some u)) → Known s (knowledgeUser u)
  knowledge : s.knowledge.Sourced (Known s) (fun _ => Checked cfg) (Signed s)

theorem checkFiles_ok {files : List Knowledge.MulterFile} (h : cfg.checkFiles files = .ok ()) :
    ∀ f ∈ files, Checked cfg f := by
  induction files with
  | nil => exact fun f hf => absurd hf List.not_mem_nil
  | cons file files ih =>
    simp only [Settings.checkFiles] at h
    split at h
    · cases h
    · rename_i hfile
      intro f hf
      rcases List.mem_cons.1 hf with rfl | hf
      · exact hfile
      · exact ih h f hf

theorem Checked.isMarkdown {f : Knowledge.MulterFile} (h : Checked cfg f) :
    isMarkdown f.originalname = true ∧ f.size ≤ FILE_SIZE_LIMIT := by
  unfold Checked Settings.checkFile at h
  split_ifs at h with hname hsize
  exact ⟨by simpa using hname, cfg.multer.le_of_fits (by simpa using hsize)⟩

section Step

variable {s s' : Server cfg} {e : Event cfg}

/-- The guards have all let the request through. -/
theorem guards_ok {req : HttpRequest cfg} {monitor : Monitoring.Monitor}
    {user : Option Auth.PartialUser} (h : guards req monitor = .ok user) :
    throttlerGuard req = .ok () ∧ jwtAuthGuard req = .ok user ∧ originGuard req = .ok () ∧
      (req.route.usesAiCircuitGuard = true → Monitoring.isAvailable monitor = true) := by
  unfold guards at h
  cases hthrottle : throttlerGuard req with
  | error e => rw [hthrottle] at h; cases h
  | ok _ =>
    cases hjwt : jwtAuthGuard req with
    | error e => rw [hthrottle, hjwt] at h; cases h
    | ok u =>
      cases horigin : originGuard req with
      | error e => rw [hthrottle, hjwt, horigin] at h; cases h
      | ok _ =>
        rw [hthrottle, hjwt, horigin] at h
        by_cases hcircuit : req.route.usesAiCircuitGuard = true
        · by_cases havail : Monitoring.isAvailable monitor = false
          · simp [hcircuit, Monitoring.canActivate, havail, bind, Except.bind] at h
          · simp [hcircuit, Monitoring.canActivate, havail, bind, Except.bind, pure,
              Except.pure] at h
            exact ⟨rfl, by rw [h], rfl, fun _ => by simpa using havail⟩
        · simp [hcircuit, bind, Except.bind, pure, Except.pure] at h
          exact ⟨rfl, by rw [h], rfl, fun hno => absurd hno hcircuit⟩

/-- A user comes from a token. -/
theorem jwtAuthGuard_some {req : HttpRequest cfg} {u : Auth.PartialUser}
    (h : jwtAuthGuard req = .ok (some u)) :
    req.route.isPublic = false ∧ ∃ token payload, req.token = some token ∧
      cfg.auth.verify token req.now = some payload ∧ u = Auth.validate payload := by
  unfold jwtAuthGuard at h
  split_ifs at h with hpublic
  · cases h
  · split at h
    · cases h
    · rename_i payload hverify
      cases h
      obtain ⟨token, htoken, hpayload⟩ := Option.bind_eq_some_iff.1 hverify
      exact ⟨Bool.eq_false_of_not_eq_true hpublic, token, payload, htoken, hpayload, rfl⟩

theorem map_fst_subset_set {l : List (HttpRequest cfg × Stage)} {p : ℕ} {req : HttpRequest cfg}
    {stage stage' : Stage} (h : l[p]? = some (req, stage)) :
    l.map Prod.fst ⊆ (l.set p (req, stage')).map Prod.fst := by
  have heq : (l.set p (req, stage')).map Prod.fst = l.map Prod.fst := by
    refine List.ext_getElem? fun q => ?_
    rw [List.getElem?_map, List.getElem?_map]
    by_cases hpq : p = q
    · subst hpq
      rw [List.getElem?_set_self (List.getElem?_eq_some_iff.1 h).1, h]
      rfl
    · rw [List.getElem?_set_ne hpq]
  rw [heq]
  exact List.Subset.refl _

/-- Requests are not forgotten. -/
theorem requests_subset (h : step s e = some s') :
    s.requests.map Prod.fst ⊆ s'.requests.map Prod.fst := by
  cases step_sound h with
  | arrived req =>
    show _ ⊆ (s.requests ++ [(req, _)]).map Prod.fst
    rw [List.map_append]
    exact List.subset_append_left _ _
  | refused p req user e hp hcall => exact map_fst_subset_set hp
  | paged p req user hp hcall => exact map_fst_subset_set hp
  | authCalled p req user ae auth hp hcall ha => exact map_fst_subset_set hp
  | knowledgeCalled p req user r k hp hcall hk => exact map_fst_subset_set hp
  | chatCalled p req user ce chat hp hcall hc => exact map_fst_subset_set hp
  | _ => exact List.Subset.refl _

theorem known_mono (h : step s e = some s') {v : Knowledge.User} (hv : Known s v) : Known s' v := by
  obtain ⟨user, huser, hid, req, hreq, token, htoken, hissued⟩ := hv
  have hauth : s.auth.users.rows ⊆ s'.auth.users.rows ∧ s.auth.issued ⊆ s'.auth.issued := by
    rcases auth_step h with hsame | ⟨ae, hstep, -⟩
    · rw [hsame]
      exact ⟨List.Subset.refl _, List.Subset.refl _⟩
    · exact auth_mono hstep
  exact ⟨user, hauth.1 huser, hid, req, requests_subset h hreq, token, htoken, hauth.2 hissued⟩

theorem signed_mono (h : step s e = some s') {dto : Knowledge.RagWebhookDto}
    (hdto : Signed s dto) : Signed s' dto := by
  obtain ⟨req, hreq, answers, hroute⟩ := hdto
  exact ⟨req, requests_subset h hreq, answers, hroute⟩

/-- What a handler asks for is asked for by `request.user`, with files that have been checked, or
reported under the secret. -/
theorem request_sourced {req : HttpRequest cfg} {user : Option Auth.PartialUser}
    {r : Knowledge.Request} (hcall : req.route.call user = .ok (.knowledge r))
    {P : Knowledge.User → Prop} {R : Knowledge.RagWebhookDto → Prop}
    (hP : ∀ u, user = some u → P (knowledgeUser u))
    (hR : ∀ dto answers, req.route = .handleWebhook dto (some cfg.webhookSecret) answers → R dto) :
    r.Sourced P (fun _ => Checked cfg) R := by
  have hcalls := call_sound hcall
  generalize req.route = route at hcalls hR
  have hone : ∀ u, user = some u → ∀ v, some (knowledgeUser u) = some v → P v := by
    rintro u hu v ⟨rfl⟩
    exact hP u hu
  cases hcalls with
  | uploadDocs files u huser hfiles =>
    exact ⟨hone u huser, fun _ _ => checkFiles_ok hfiles, fun dto hdto => by cases hdto⟩
  | getKnowledgeDocs u huser =>
    exact ⟨hone u huser, fun _ _ f hf => absurd hf List.not_mem_nil, fun dto hdto => by cases hdto⟩
  | replaceDocs id title file u huser hfile =>
    exact ⟨hone u huser, fun _ _ f hf => List.mem_singleton.1 hf ▸ hfile,
      fun dto hdto => by cases hdto⟩
  | deleteDoc id u huser =>
    exact ⟨hone u huser, fun _ _ f hf => absurd hf List.not_mem_nil, fun dto hdto => by cases hdto⟩
  | handleWebhook dto secret answers hsecret =>
    refine ⟨fun v hv => (by cases hv), fun _ _ f hf => absurd hf List.not_mem_nil, ?_⟩
    rintro dto' ⟨rfl⟩
    exact hR dto answers (by rw [hsecret])

/-- The knowledge feature is called with what the handlers ask for. -/
theorem sourced_of_cause {P : Knowledge.User → Prop} {R : Knowledge.RagWebhookDto → Prop}
    (hpassed : ∀ (p : ℕ) (req : HttpRequest cfg) (u : Auth.PartialUser),
      s.requests[p]? = some (req, .passed (some u)) → P (knowledgeUser u))
    (hsigned : ∀ dto, Signed s dto → R dto) {ke : Knowledge.HttpEvent} (hcause : Cause s e ke)
    {r : Knowledge.Request} (hr : ke = .intercept r ∨ ke = .request r) :
    r.Sourced P (fun _ => Checked cfg) R := by
  cases hcause with
  | sent p req user r' hp hcall =>
    have hreq : req ∈ s.requests.map Prod.fst := List.mem_map_of_mem (List.mem_of_getElem? hp)
    have hsourced := request_sourced hcall (fun u hu => hpassed p req u (hu ▸ hp))
      fun dto answers hroute => hsigned dto ⟨req, hreq, answers, hroute⟩
    unfold knowledgeEvent at hr
    split_ifs at hr <;> rcases hr with hr | hr <;> cases hr <;> exact hsourced
  | resume i env => rcases hr with hr | hr <;> cases hr
  | handle c => rcases hr with hr | hr <;> cases hr
  | cron =>
    rcases hr with hr | hr <;> cases hr
    exact ⟨fun v hv => (by cases hv), fun _ _ f hf => absurd hf List.not_mem_nil,
      fun dto hdto => by cases hdto⟩

theorem sourced_step {P : Knowledge.User → Prop} {R : Knowledge.RagWebhookDto → Prop}
    (hs : s.knowledge.Sourced P (fun _ => Checked cfg) R)
    (hpassed : ∀ (p : ℕ) (req : HttpRequest cfg) (u : Auth.PartialUser),
      s.requests[p]? = some (req, .passed (some u)) → P (knowledgeUser u))
    (hsigned : ∀ dto, Signed s dto → R dto)
    (h : App.step s e = some s') : s'.knowledge.Sourced P (fun _ => Checked cfg) R := by
  rcases knowledge_step h with hsame | ⟨ke, hcause, hstep⟩
  · rw [hsame]
    exact hs
  · exact hs.step (fun r hr => sourced_of_cause hpassed hsigned hcause hr) hstep

/-- A request that the guards let through for a user bears a token of that user. -/
theorem known_of_arrival {req : HttpRequest cfg} {u : Auth.PartialUser}
    (hs : Issued s.auth) (hgenuine : Genuine s (.arrive req))
    (h : App.step s (.arrive req) = some s')
    (hstage : arrival s req = .passed (some u)) : Known s' (knowledgeUser u) := by
  unfold arrival at hstage
  split at hstage
  · cases hstage
  · rename_i user hguards
    cases hstage
    obtain ⟨-, token, payload, htoken, hverify, rfl⟩ := jwtAuthGuard_some (guards_ok hguards).2.1
    have hissued := hgenuine token htoken payload hverify
    obtain ⟨user, huser, rfl⟩ := hs.issued _ hissued
    have hauth : s.auth.users.rows ⊆ s'.auth.users.rows ∧ s.auth.issued ⊆ s'.auth.issued := by
      rcases auth_step h with hsame | ⟨ae, hstep, -⟩
      · rw [hsame]
        exact ⟨List.Subset.refl _, List.Subset.refl _⟩
      · exact auth_mono hstep
    refine ⟨user, hauth.1 huser, rfl, req, ?_, token, htoken, hauth.2 hissued⟩
    obtain rfl := Option.some.inj h
    simp

theorem Callers.step (hs : Callers s) (hgenuine : Genuine s e) (h : App.step s e = some s') :
    Callers s' := by
  have hknown : ∀ v, Known s v → Known s' v := fun v hv => known_mono h hv
  refine ⟨?_, fun p req u hp => ?_, ?_⟩
  · rcases auth_step h with hsame | ⟨ae, hstep, -⟩
    · rw [hsame]
      exact hs.issued
    · exact hs.issued.step hstep
  · rcases requests_step h hp with hold | ⟨rfl, hstage⟩ | ⟨user, -, -, hstage | ⟨e, hstage⟩⟩
    · exact hknown _ (hs.passed p req u hold)
    · exact known_of_arrival hs.issued hgenuine h hstage.symm
    · cases hstage
    · cases hstage
  · exact (sourced_step hs.knowledge hs.passed (fun _ => id) h).imp hknown (fun _ _ => id)
      fun dto hdto => signed_mono h hdto

end Step

theorem callers_boot (cfg : Settings α) : Callers (boot cfg) where
  issued := ⟨fun _ h => absurd h List.not_mem_nil, fun _ h => absurd h List.not_mem_nil⟩
  passed := fun _ _ _ hp => by cases hp
  knowledge := Knowledge.sourced_boot

/-- **The knowledge feature works only for registered users of whom a request has borne a token,
and all documents are theirs**, whatever requests arrive in which order. -/
theorem callers_of_run (cfg : Settings α) (es : List (Event cfg)) (s : Server cfg)
    (hgenuine : Meets App.step Genuine (boot cfg) es) (h : run App.step (boot cfg) es = some s) :
    (∀ (i : ℕ) (op : Knowledge.Op) (v : Knowledge.User), s.knowledge.sys.ops[i]? = some op →
      op.pc.user = some v → Known s v) ∧
    ∀ d ∈ s.knowledge.sys.world.docs.rows, Known s ⟨d.uploaderId⟩ := by
  have hcallers : Callers s :=
    invariant_of_meets (fun _ _ _ hs hgenuine h => hs.step hgenuine h) (callers_boot cfg) hgenuine s
      (Visits.of_run h)
  exact ⟨fun i op v hop => (hcallers.knowledge.holds.ops i op hop).user v, fun d hd =>
    (hcallers.knowledge.world.rows d hd).owner⟩

/-- The first upload is that of the user who signed in. -/
theorem callers_uploadRun : ∃ s, run App.step (boot exampleSettings) uploadRun = some s ∧
    s.knowledge.sys.world.docs.rows.length = 1 ∧
    (∀ (i : ℕ) (op : Knowledge.Op) (v : Knowledge.User), s.knowledge.sys.ops[i]? = some op →
      op.pc.user = some v → Known s v) ∧
    ∀ d ∈ s.knowledge.sys.world.docs.rows, Known s ⟨d.uploaderId⟩ := by
  have hrun : (run App.step (boot exampleSettings) uploadRun).map
      (fun s => s.knowledge.sys.world.docs.rows.length) = some 1 := by decide +kernel
  obtain ⟨s, hs, hlen⟩ := Option.map_eq_some_iff.1 hrun
  exact ⟨s, hs, hlen, callers_of_run exampleSettings uploadRun s (by decide +kernel) hs⟩

/-! ### Results -/

/-- **What a row says about the work on it was reported under the secret of the webhook**: a row is
COMPLETED or FAILED, and has an error text or metadata, only because a request with the secret has
said so of this row. -/
theorem reported_of_run (cfg : Settings α) (es : List (Event cfg)) (s : Server cfg)
    (h : run App.step (boot cfg) es = some s) :
    ∀ d ∈ s.knowledge.sys.world.docs.rows, d.Told (Signed s) := by
  have hkeep : ∀ (s : Server cfg) (e : Event cfg) (t : Server cfg),
      s.knowledge.Sourced (fun _ => True) (fun _ => Checked cfg) (Signed s) →
        App.step s e = some t →
          t.knowledge.Sourced (fun _ => True) (fun _ => Checked cfg) (Signed t) :=
    fun s e t hs hstep => (sourced_step hs (fun _ _ _ _ => trivial) (fun _ => id) hstep).imp
      (fun _ => id) (fun _ _ => id) fun dto hdto => signed_mono hstep hdto
  have hsourced : s.knowledge.Sourced (fun _ => True) (fun _ => Checked cfg) (Signed s) :=
    invariant hkeep Knowledge.sourced_boot ⟨es, h⟩
  exact fun d hd => (hsourced.world.rows d hd).told

/-- The worker answers the upload, after a request with a wrong secret. -/
def reportRun : List (Event exampleSettings) :=
  uploadRun ++
    [.dispatchPendingTasks, .knowledge 2 { order := [uploadedNotes] }, .knowledge 2 {},
      .knowledge 2 {},
      .arrive { route := .handleWebhook Knowledge.failedDto (some "guess") none }, .enter 3,
      .arrive
        { route := .handleWebhook Knowledge.completedDto (some "protostar-secret-key") none },
      .enter 4, .knowledge 3 { now := 90 }]

theorem reported_reportRun : ∃ s, run App.step (boot exampleSettings) reportRun = some s ∧
    (s.knowledge.sys.world.docs.rows.map fun d => (d.id, d.status)) = [("d0", .COMPLETED)] ∧
      ∀ d ∈ s.knowledge.sys.world.docs.rows, d.Told (Signed s) := by
  have hrun : (run App.step (boot exampleSettings) reportRun).map
      (fun s => s.knowledge.sys.world.docs.rows.map fun d => (d.id, d.status)) =
        some [("d0", .COMPLETED)] := by decide +kernel
  obtain ⟨s, hs, hrows⟩ := Option.map_eq_some_iff.1 hrun
  exact ⟨s, hs, hrows, reported_of_run exampleSettings reportRun s hs⟩

/-! ### Files -/

theorem isMarkdown_generateMinioKey {filename : String} (h : isMarkdown filename = true)
    (env : Knowledge.Env) : isMarkdown (Knowledge.generateMinioKey env filename) = true := by
  unfold isMarkdown at h ⊢
  rw [decide_eq_true_iff] at h ⊢
  exact Knowledge.suffix_generateMinioKey (by decide) (by decide) h env

/-- **All documents and all objects are Markdown files of at most 50 MB**, whoever uploads them and
under whatever names. -/
theorem markdown_of_run (cfg : Settings α) (es : List (Event cfg)) (s : Server cfg)
    (h : run App.step (boot cfg) es = some s) :
    (∀ d ∈ s.knowledge.sys.world.docs.rows,
      isMarkdown d.originalFilename = true ∧ d.fileSize ≤ FILE_SIZE_LIMIT) ∧
    ∀ k, s.knowledge.sys.world.objects k ≠ none → isMarkdown k = true := by
  have hkeep : ∀ (s : Server cfg) (e : Event cfg) (t : Server cfg),
      s.knowledge.Sourced (fun _ => True) (fun _ => Checked cfg) (fun _ => True) →
        App.step s e = some t →
          t.knowledge.Sourced (fun _ => True) (fun _ => Checked cfg) (fun _ => True) :=
    fun s e t hs hstep => sourced_step hs (fun _ _ _ _ => trivial) (fun _ _ => trivial) hstep
  have hsourced : s.knowledge.Sourced (fun _ => True) (fun _ => Checked cfg) (fun _ => True) :=
    invariant hkeep Knowledge.sourced_boot ⟨es, h⟩
  have hkeep' : ∀ (s : Knowledge.Sys) (e : Knowledge.Event) (t : Knowledge.Sys),
      Knowledge.Uploaded s.world → Knowledge.step cfg.knowledge s e = some t →
        Knowledge.Uploaded t.world := fun _ _ _ hs hstep => hs.step hstep
  have huploaded : Knowledge.Uploaded s.knowledge.sys.world :=
    invariant hkeep' (fun k hk => absurd rfl hk)
      (Knowledge.Http.sys_reachable (knowledge_reachable h))
  refine ⟨fun d hd => ?_, fun k hk => ?_⟩
  · obtain ⟨v, f, hf, hname, hsize, -⟩ := (hsourced.world.rows d hd).file
    rw [hname, hsize]
    exact hf.isMarkdown
  · obtain ⟨p, hp, rfl⟩ := List.mem_map.1 (huploaded k hk)
    obtain ⟨⟨v, hf⟩, env, hkey⟩ := hsourced.world.puts p hp
    rw [hkey]
    exact isMarkdown_generateMinioKey hf.isMarkdown.1 env

/-- After the upload a file of another kind, and one that is too large. -/
def refusedRun : List (Event exampleSettings) :=
  uploadRun ++
    [.arrive
      { route := .uploadDocs [notes, { notes with originalname := "notes.md.txt" }],
        token := some "u0 ADMIN 1", now := 60 },
      .enter 3,
      .arrive
        { route := .replaceDocs "d0" none { notes with size := 52428800 },
          token := some "u0 ADMIN 1", now := 60 },
      .enter 4]

theorem markdown_refusedRun : ∃ s, run App.step (boot exampleSettings) refusedRun = some s ∧
    s.knowledge.sys.world.docs.rows.map Knowledge.KnowledgeDoc.originalFilename = ["notes.md"] ∧
    (s.requests.drop 3).map Prod.snd =
      [.refused ⟨false, 500, "Internal Server Error"⟩, .refused ⟨false, 413, "File too large"⟩] ∧
    (∀ d ∈ s.knowledge.sys.world.docs.rows,
      isMarkdown d.originalFilename = true ∧ d.fileSize ≤ FILE_SIZE_LIMIT) ∧
    ∀ k, s.knowledge.sys.world.objects k ≠ none → isMarkdown k = true := by
  have hrun : (run App.step (boot exampleSettings) refusedRun).map (fun s =>
      (s.knowledge.sys.world.docs.rows.map Knowledge.KnowledgeDoc.originalFilename,
        (s.requests.drop 3).map Prod.snd)) = some (["notes.md"],
          [.refused ⟨false, 500, "Internal Server Error"⟩,
            .refused ⟨false, 413, "File too large"⟩]) := by decide +kernel
  obtain ⟨s, hs, hlast⟩ := Option.map_eq_some_iff.1 hrun
  obtain ⟨hrows, hrefused⟩ := Prod.mk.inj hlast
  exact ⟨s, hs, hrows, hrefused, markdown_of_run exampleSettings refusedRun s hs⟩

end ProtostarNest.App
