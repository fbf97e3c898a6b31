import ProtostarNest.Knowledge.Columns
import ProtostarNest.Knowledge.Failures
import ProtostarNest.Knowledge.Versions

/-!
# What a client reads

`findAll`, `replaceFile` and `deleteFile` answer with a listing: one call reads the caller's rows
and a later one counts them, while other requests move on in between.

* `exists_exit`: a request that is answered has left each part of its code by one of its exits;
* `Listed`: the answer lists the rows of one moment and counts those of a later one;
* `listed_of_run`: each such answer does;
* `deleted_of_run`, `replaced_of_run`: a client reads its own writes;
* `monotonic_of_run`: and never reads backwards.
-/

namespace ProtostarNest.Knowledge

open Transition Queue

/-- What a listing says about a row. -/
def KnowledgeDoc.listed (d : KnowledgeDoc) : UploadedData :=
  ⟨d.id, d.title, d.originalFilename, d.fileSize, d.status, d.version, d.createdAt⟩

theorem UploadedData.Shows.eq_listed {x : UploadedData} {d : KnowledgeDoc} (h : x.Shows d) :
    x = d.listed := by
  obtain ⟨id, title, originalFilename, fileSize, status, version, createdAt⟩ := x
  obtain ⟨rfl, rfl, rfl, rfl, rfl, rfl, rfl⟩ := h
  rfl

/-- What later listings may say about the same document. -/
structure UploadedData.Evolves (x y : UploadedData) : Prop where
  createdAt : y.createdAt = x.createdAt
  version : x.version ≤ y.version
  file : y.version = x.version →
    y.title = x.title ∧ y.originalFilename = x.originalFilename ∧ y.fileSize = x.fileSize
  waiting : y.version = x.version → y.status = .UPLOADED → x.status = .UPLOADED

theorem KnowledgeDoc.Evolves.listed {d d' : KnowledgeDoc} (h : d.Evolves d') :
    d.listed.Evolves d'.listed where
  createdAt := h.createdAt
  version := h.version
  file := fun heq => by
    have hcontent := h.content heq
    have htitle : d'.content.title = d.content.title := by rw [hcontent]
    have hname : d'.content.originalFilename = d.content.originalFilename := by rw [hcontent]
    have hsize : d'.content.fileSize = d.content.fileSize := by rw [hcontent]
    exact ⟨htitle, hname, hsize⟩
  waiting := h.waiting

/-- The user to whom the answer lists documents. -/
def Request.lists : Request → Option User
  | .replaceFile user _ _ _ => some user
  | .deleteFile user _ => some user
  | .findAll user => some user
  | _ => none

namespace Pc

/-- The document that the request is about to delete, with its user. -/
def deletes : Pc → Option (User × String)
  | .deleteFind user id => some (user, id)
  | .deleteObject user doc => some (user, doc.id)
  | .deleteRow user id => some (user, id)
  | _ => none

/-- The document that the request is about to replace. -/
def replaces : Pc → Option (User × String × Option String × MulterFile)
  | .replaceFind user id title file => some (user, id, title, file)
  | .replacePut user title file doc => some (user, doc.id, title, file)
  | .replaceDeleteOld user title file doc _ => some (user, doc.id, title, file)
  | .replaceUpdate user id title file _ => some (user, id, title, file)
  | _ => none

theorem calling_of_deletes {pc : Pc} {p : User × String} (h : pc.deletes = some p) :
    pc.Calling := by
  cases pc <;> trivial

theorem calling_of_replaces {pc : Pc} {p : User × String × Option String × MulterFile}
    (h : pc.replaces = some p) : pc.Calling := by
  cases pc <;> trivial

end Pc

/-! ### The parts of a request -/

section Exit

variable {cfg : Config} {s s' t : Sys} {e : Event} {es : List Event} {i : ℕ} {pc : Pc}
  {reply : Reply} {result : Except Exception Reply}

theorem done_run (hpc : s.pc? i = some (.done result)) (h : run (step cfg) s es = some t) :
    t.pc? i = some (.done result) := by
  induction es generalizing s with
  | nil => cases h; exact hpc
  | cons e es ih =>
    obtain ⟨u, hu, hrest⟩ := (run_cons_eq_some _).1 h
    cases he : e.envOf i with
    | none => exact ih (pc?_of_other hu he hpc) hrest
    | some env =>
      obtain rfl := envOf_eq_some he
      exact ih (step_of_done hu hpc).2 hrest

/-- A request that is answered without an exception leaves the control points `P` by a call with
`Q`, if its calls at those points lead to others of them, to an exception or to `Q`. -/
theorem exists_exit {P : Pc → Prop} {Q : World → World → Pc → Prop}
    (hcall : ∀ pc, P pc → pc.Calling)
    (hstep : ∀ w env pc w' pc', P pc → advance cfg w env pc = some (w', pc') →
      P pc' ∨ (∃ e, pc' = .throw e) ∨ Q w w' pc')
    (hpc : s.pc? i = some pc) (hP : P pc) (h : run (step cfg) s es = some t)
    (ht : t.pc? i = some (.done (.ok reply))) :
    ∃ es₁ env es₂ s₁ s₂ pc', es = es₁ ++ .resume i env :: es₂ ∧
      run (step cfg) s es₁ = some s₁ ∧ step cfg s₁ (.resume i env) = some s₂ ∧
      Q s₁.world s₂.world pc' ∧ s₂.pc? i = some pc' ∧ run (step cfg) s₂ es₂ = some t := by
  induction es generalizing s pc with
  | nil =>
    cases h
    rw [hpc] at ht
    cases ht
    exact (hcall _ hP).elim
  | cons e es ih =>
    obtain ⟨u, hu, hrest⟩ := (run_cons_eq_some _).1 h
    cases he : e.envOf i with
    | none =>
      obtain ⟨es₁, env, es₂, s₁, s₂, pc', rfl, hs₁, hexit⟩ := ih (pc?_of_other hu he hpc) hP hrest
      exact ⟨e :: es₁, env, es₂, s₁, s₂, pc', rfl, (run_cons_some _ es₁ hu).trans hs₁, hexit⟩
    | some env =>
      obtain rfl := envOf_eq_some he
      obtain ⟨pc', hadv, hpc'⟩ := advance_of_calling hu hpc (hcall pc hP)
      rcases hstep _ _ _ _ _ hP hadv with hP' | ⟨e, rfl⟩ | hQ
      · obtain ⟨es₁, env', es₂, s₁, s₂, pc'', rfl, hs₁, hexit⟩ := ih hpc' hP' hrest
        exact ⟨.resume i env :: es₁, env', es₂, s₁, s₂, pc'', rfl,
          (run_cons_some _ es₁ hu).trans hs₁, hexit⟩
      · rw [done_run hpc' hrest] at ht
        cases ht
      · exact ⟨[], env, es, s, u, pc', rfl, rfl, hu, hQ, hpc', hrest⟩

end Exit

/-! ### The listing -/

/-- The reply has an entry for each row that the user has in `a` and for no other, the newest first,
and counts the rows that the user has in `a` or in a later state. -/
def Listed (cfg : Config) (user : User) (s : Sys) (es : List Event) (reply : Reply) (a : Sys) :
    Prop :=
  ∃ es₁ es₂ docs b r, es = es₁ ++ es₂ ∧ run (step cfg) s es₁ = some a ∧
    docs.Perm (a.world.docs.rows.filter fun d => d.uploaderId = user.id) ∧
    docs.Pairwise (fun d d' => d'.createdAt ≤ d.createdAt) ∧
    Visits (step cfg) a es₂ b ∧ reply = .response r ∧ r.Tells docs user b.world

section Listing

variable {cfg : Config} {s s' t a : Sys} {e : Event} {es : List Event} {i : ℕ} {pc : Pc}
  {reply : Reply} {user : User} {id : String} {title : Option String} {file : MulterFile}

theorem Listed.append (es₀ : List Event) (hs : run (step cfg) s' es₀ = some s)
    (h : Listed cfg user s es reply a) : Listed cfg user s' (es₀ ++ es) reply a := by
  obtain ⟨es₁, es₂, docs, b, r, rfl, ha, hrest⟩ := h
  exact ⟨es₀ ++ es₁, es₂, docs, b, r, (List.append_assoc ..).symm,
    (run_append_eq_some _).2 ⟨s, hs, ha⟩, hrest⟩

theorem Listed.cons (hs : step cfg s' e = some s) (h : Listed cfg user s es reply a) :
    Listed cfg user s' (e :: es) reply a :=
  h.append [e] ((run_cons_some _ [] hs).trans rfl)

theorem advance_findAll {w w' : World} {env : Env} {pc' : Pc}
    (h : advance cfg w env (.findAll user) = some (w', pc')) :
    (∃ e, pc' = .throw e) ∨ ∃ docs, IsFindAll w user docs ∧ pc' = .formatCount user docs := by
  simp only [advance] at h
  split at h
  · cases h
    exact Or.inl ⟨_, rfl⟩
  · split_ifs at h with horder
    cases h
    exact Or.inr ⟨_, horder, rfl⟩

theorem advance_formatCount {w w' : World} {env : Env} {pc' : Pc} {docs : List KnowledgeDoc}
    (h : advance cfg w env (.formatCount user docs) = some (w', pc')) :
    (∃ e, pc' = .throw e) ∨
      pc' = .done (.ok (.response (formatResponse docs (w.count user.id)))) := by
  simp only [advance] at h
  split at h <;> cases h
  · exact Or.inl ⟨_, rfl⟩
  · exact Or.inr rfl

/-- From `findAll` on. -/
theorem listed_of_findAll (hpc : s.pc? i = some (.findAll user))
    (h : run (step cfg) s es = some t) (ht : t.pc? i = some (.done (.ok reply))) :
    ∃ a, Listed cfg user s es reply a := by
  obtain ⟨es₁, env, es₂, a, s₂, pc₁, rfl, ha, hstep, ⟨docs, hdocs, rfl⟩, hpc₁, h⟩ :=
    exists_exit (P := fun pc => pc = .findAll user)
      (Q := fun w _ pc => ∃ docs, IsFindAll w user docs ∧ pc = .formatCount user docs)
      (fun pc hpc => by subst hpc; trivial)
      (fun w env pc w' pc' hpc hadv => by subst hpc; exact Or.inr (advance_findAll hadv))
      hpc rfl h ht
  obtain ⟨es₃, env', es₄, b, s₄, pc₂, rfl, hb, -, rfl, hpc₂, h⟩ :=
    exists_exit (P := fun pc => pc = .formatCount user docs)
      (Q := fun w _ pc => pc = .done (.ok (.response (formatResponse docs (w.count user.id)))))
      (fun pc hpc => by subst hpc; trivial)
      (fun w env pc w' pc' hpc hadv => by subst hpc; exact Or.inr (advance_formatCount hadv))
      hpc₁ rfl h ht
  rw [done_run hpc₂ h] at ht
  cases ht
  obtain ⟨hperm, hnewest⟩ := hdocs
  exact ⟨a, es₁, .resume i env :: (es₃ ++ .resume i env' :: es₄), docs, b, _, rfl, ha, hperm,
    hnewest, Visits.cons hstep ⟨es₃, List.prefix_append _ _, hb⟩, rfl,
    formatResponse_tells docs user b.world⟩

/-! ### Deletions and replacements -/

/-- The steps of a deletion up to that of its row. -/
theorem advance_deletes {w w' : World} {env : Env} {pc' : Pc} (hpc : pc.deletes = some (user, id))
    (h : advance cfg w env pc = some (w', pc')) :
    pc'.deletes = some (user, id) ∨ (∃ e, pc' = .throw e) ∨
      (pc' = .findAll user ∧ ∃ docs, w.docs.delete id = some docs ∧
        w' = w.commit docs (.deleted id)) := by
  cases pc with
  | deleteFind user' id' =>
    cases hpc
    simp only [advance] at h
    split at h
    · cases h
      exact Or.inr (Or.inl ⟨_, rfl⟩)
    · split at h
      · cases h
        exact Or.inr (Or.inl ⟨_, rfl⟩)
      · rename_i doc hdoc
        obtain ⟨-, rfl⟩ := Table.findUnique_eq_some.1 hdoc
        split_ifs at h <;> cases h
        · exact Or.inr (Or.inl ⟨_, rfl⟩)
        · exact Or.inl rfl
  | deleteObject user' doc =>
    cases hpc
    simp only [advance] at h
    split at h <;> cases h <;> exact Or.inl rfl
  | deleteRow user' id' =>
    cases hpc
    simp only [advance] at h
    split at h <;> rename_i hdel <;> cases h
    · exact Or.inr (Or.inl ⟨_, rfl⟩)
    · obtain ⟨-, docs, hdocs, rfl⟩ := World.delete_ok hdel
      exact Or.inr (Or.inr ⟨rfl, docs, hdocs, rfl⟩)
  | _ => cases hpc

/-- The steps of a replacement up to that of its row. -/
theorem advance_replaces {w w' : World} {env : Env} {pc' : Pc}
    (hpc : pc.replaces = some (user, id, title, file))
    (h : advance cfg w env pc = some (w', pc')) :
    pc'.replaces = some (user, id, title, file) ∨ (∃ e, pc' = .throw e) ∨
      (pc' = .findAll user ∧ ∃ (env : Env) (minioKey : String) (docs : Table KnowledgeDoc.id),
        w.docs.update id (replaceDoc cfg env title file minioKey) (fun _ => rfl) = some docs ∧
          w' = w.commit docs (.replaced id minioKey)) := by
  cases pc with
  | replaceFind user' id' title' file' =>
    cases hpc
    simp only [advance] at h
    split at h
    · cases h
      exact Or.inr (Or.inl ⟨_, rfl⟩)
    · split at h
      · cases h
        exact Or.inr (Or.inl ⟨_, rfl⟩)
      · rename_i doc hdoc
        obtain ⟨-, rfl⟩ := Table.findUnique_eq_some.1 hdoc
        split_ifs at h <;> cases h
        · exact Or.inr (Or.inl ⟨_, rfl⟩)
        · exact Or.inl rfl
  | replacePut user' title' file' doc =>
    cases hpc
    simp only [advance] at h
    split at h <;> cases h
    · exact Or.inr (Or.inl ⟨_, rfl⟩)
    · exact Or.inl rfl
  | replaceDeleteOld user' title' file' doc minioKey =>
    cases hpc
    simp only [advance] at h
    split at h <;> cases h <;> exact Or.inl rfl
  | replaceUpdate user' id' title' file' minioKey =>
    cases hpc
    simp only [advance] at h
    split at h <;> rename_i hupd <;> cases h
    · exact Or.inr (Or.inl ⟨_, rfl⟩)
    · obtain ⟨-, docs, hdocs, rfl⟩ := World.update_ok hupd
      exact Or.inr (Or.inr ⟨rfl, env, minioKey, docs, hdocs, rfl⟩)
  | _ => cases hpc

/-- A deletion that is answered has deleted the row, and has listed the others afterwards. -/
theorem exists_deleted (hpc : s.pc? i = some pc) (hdel : pc.deletes = some (user, id))
    (h : run (step cfg) s es = some t) (ht : t.pc? i = some (.done (.ok reply))) :
    ∃ es₁ env es₂ s₁ s₂ docs, es = es₁ ++ .resume i env :: es₂ ∧
      run (step cfg) s es₁ = some s₁ ∧ step cfg s₁ (.resume i env) = some s₂ ∧
      s₁.world.docs.delete id = some docs ∧ s₂.world = s₁.world.commit docs (.deleted id) ∧
      run (step cfg) s₂ es₂ = some t ∧ ∃ a, Listed cfg user s₂ es₂ reply a := by
  obtain ⟨es₁, env, es₂, s₁, s₂, pc', rfl, hs₁, hs₂, ⟨rfl, docs, hdocs, hw⟩, hpc', h⟩ :=
    exists_exit (P := fun pc => pc.deletes = some (user, id))
      (Q := fun w w' pc => pc = .findAll user ∧ ∃ docs, w.docs.delete id = some docs ∧
        w' = w.commit docs (.deleted id))
      (fun _ => Pc.calling_of_deletes) (fun _ _ _ _ _ => advance_deletes) hpc hdel h ht
  exact ⟨es₁, env, es₂, s₁, s₂, docs, rfl, hs₁, hs₂, hdocs, hw, h, listed_of_findAll hpc' h ht⟩

/-- The same for a replacement. -/
theorem exists_replaced (hpc : s.pc? i = some pc)
    (hrep : pc.replaces = some (user, id, title, file))
    (h : run (step cfg) s es = some t) (ht : t.pc? i = some (.done (.ok reply))) :
    ∃ es₁ env es₂ s₁ s₂ env' minioKey docs, es = es₁ ++ .resume i env :: es₂ ∧
      run (step cfg) s es₁ = some s₁ ∧ step cfg s₁ (.resume i env) = some s₂ ∧
      s₁.world.docs.update id (replaceDoc cfg env' title file minioKey) (fun _ => rfl) =
        some docs ∧ s₂.world = s₁.world.commit docs (.replaced id minioKey) ∧
      run (step cfg) s₂ es₂ = some t ∧ ∃ a, Listed cfg user s₂ es₂ reply a := by
  obtain ⟨es₁, env, es₂, s₁, s₂, pc', rfl, hs₁, hs₂, ⟨rfl, env', minioKey, docs, hdocs, hw⟩, hpc',
      h⟩ :=
    exists_exit (P := fun pc => pc.replaces = some (user, id, title, file))
      (Q := fun w w' pc => pc = .findAll user ∧
        ∃ (env : Env) (minioKey : String) (docs : Table KnowledgeDoc.id),
          w.docs.update id (replaceDoc cfg env title file minioKey) (fun _ => rfl) = some docs ∧
            w' = w.commit docs (.replaced id minioKey))
      (fun _ => Pc.calling_of_replaces) (fun _ _ _ _ _ => advance_replaces) hpc hrep h ht
  exact ⟨es₁, env, es₂, s₁, s₂, env', minioKey, docs, rfl, hs₁, hs₂, hdocs, hw, h,
    listed_of_findAll hpc' h ht⟩

end Listing

/-! ### Runs from the arrival of a request -/

section Run

variable {cfg : Config} {w : World} {s t a : Sys} {es : List Event} {reply : Reply} {user : User}
  {id : String} {title : Option String} {file : MulterFile}

theorem pc?_spawn (s : Sys) (pc : Pc) : (s.spawn pc).pc? s.ops.length = some pc := by
  simp [Sys.pc?, Sys.spawn]

/-- A task that the queue refuses has failed. -/
theorem pc?_add (s : Sys) (pc : Pc) : (s.add pc).pc? s.ops.length = some pc ∨
    ∃ e, (s.add pc).pc? s.ops.length = some (.throw e) := by
  unfold Sys.add
  split
  · exact Or.inr ⟨_, pc?_spawn s _⟩
  · exact Or.inl (by simp [Sys.pc?])

/-- Where a listing request is after its arrival, if it is answered in the end. -/
theorem pc?_replaceFile {s' : Sys}
    (hs' : step cfg s (.request (.replaceFile user id title file)) = some s')
    (h : run (step cfg) s' es = some t)
    (ht : t.pc? s.ops.length = some (.done (.ok reply))) :
    s'.pc? s.ops.length = some (.replaceFind user id title file) := by
  obtain rfl := Option.some.inj hs'
  rcases pc?_add s (.replaceFind user id title file) with hpc | ⟨e, hpc⟩
  · exact hpc
  · rw [done_run hpc h] at ht
    cases ht

theorem Listed.after {es₁ es₂ : List Event} {s₁ s₂ : Sys} {e : Event}
    (hs₁ : run (step cfg) s es₁ = some s₁) (hs₂ : step cfg s₁ e = some s₂)
    (h : Listed cfg user s₂ es₂ reply a) : Listed cfg user s (es₁ ++ e :: es₂) reply a :=
  (h.cons hs₂).append es₁ hs₁

theorem exists_listed {s' : Sys} {q : Request} (hq : q.lists = some user)
    (hs' : step cfg s (.request q) = some s') (hrest : run (step cfg) s' es = some t)
    (ht : t.pc? s.ops.length = some (.done (.ok reply))) :
    ∃ a, Listed cfg user s' es reply a := by
  cases q with
  | findAll user' =>
    cases hq
    obtain rfl := Option.some.inj hs'
    exact listed_of_findAll (pc?_spawn s _) hrest ht
  | deleteFile user' id =>
    cases hq
    obtain rfl := Option.some.inj hs'
    obtain ⟨es₁, env, es₂, s₁, s₂, docs, rfl, hs₁, hs₂, -, -, -, a, ha⟩ :=
      exists_deleted (pc?_spawn s _) rfl hrest ht
    exact ⟨a, Listed.after hs₁ hs₂ ha⟩
  | replaceFile user' id title file =>
    cases hq
    obtain ⟨es₁, env, es₂, s₁, s₂, env', minioKey, docs, rfl, hs₁, hs₂, -, -, -, a, ha⟩ :=
      exists_replaced (pc?_replaceFile hs' hrest ht) rfl hrest ht
    exact ⟨a, Listed.after hs₁ hs₂ ha⟩
  | uploadFiles | dispatchPendingTasks | updateDocStatusViaWebhook => cases hq

/-- **Each listing that a client is sent shows the client's own documents as they were at one
moment of the request, the newest first**, with a count from that moment or a later one. -/
theorem listed_of_run (cfg : Config) (s t : Sys) (q : Request) (user : User)
    (hq : q.lists = some user) (es : List Event) (reply : Reply)
    (h : run (step cfg) s (.request q :: es) = some t)
    (ht : t.pc? s.ops.length = some (.done (.ok reply))) :
    ∃ s' a, step cfg s (.request q) = some s' ∧ Listed cfg user s' es reply a := by
  obtain ⟨s', hs', hrest⟩ := (run_cons_eq_some _).1 h
  obtain ⟨a, ha⟩ := exists_listed hq hs' hrest ht
  exact ⟨s', a, hs', ha⟩

/-- An entry of a listing is that of a row of the caller. -/
theorem Listed.entries (h : Listed cfg user s es reply a) :
    ∃ r, reply = .response r ∧ ∀ x ∈ r.uploadedData,
      ∃ d ∈ a.world.docs.rows, d.uploaderId = user.id ∧ x = d.listed := by
  obtain ⟨es₁, es₂, docs, b, r, -, -, hperm, -, -, rfl, htells⟩ := h
  refine ⟨r, rfl, fun x hx => ?_⟩
  obtain ⟨d, hd, hshows⟩ := htells.exists_row hx
  obtain ⟨hrow, howner⟩ := List.mem_filter.1 (hperm.subset hd)
  exact ⟨d, hrow, by simpa using howner, hshows.eq_listed⟩

/-- What has become of the table when the listing is read. -/
theorem Listed.evolves (h : Listed cfg user s es reply a)
    (hfresh : Meets (step cfg) FreshId s es) : s.world.Evolves a.world := by
  obtain ⟨es₁, es₂, docs, b, r, rfl, ha, -⟩ := h
  exact evolves_run hfresh.of_append ha

/-- The ids of the rows have been given at the time of a step, and the steps after it do not repeat
them. -/
theorem created_fresh {es₀ es₁ es₂ : List Event} {q e : Event} {s' s₁ s₂ : Sys}
    (hrows : ∀ d ∈ w.docs.rows, d.id ∈ w.createdIds)
    (hfresh : Meets (step cfg) FreshId (Sys.boot w) (es₀ ++ q :: (es₁ ++ e :: es₂)))
    (hs : run (step cfg) (Sys.boot w) es₀ = some s) (hs' : step cfg s q = some s')
    (hs₁ : run (step cfg) s' es₁ = some s₁) (hs₂ : step cfg s₁ e = some s₂) :
    (∀ d ∈ s₁.world.docs.rows, d.id ∈ s₁.world.createdIds) ∧ Meets (step cfg) FreshId s₂ es₂ := by
  have hboot : run (step cfg) (Sys.boot w) (es₀ ++ q :: es₁) = some s₁ :=
    (run_append_eq_some _).2 ⟨s, hs, (run_cons_some _ es₁ hs').trans hs₁⟩
  rw [← List.cons_append, ← List.append_assoc] at hfresh
  exact ⟨row_created_run hrows hfresh.of_append hboot, ((hfresh.of_run hboot) s₂ hs₂).2⟩

/-- **A deletion that is answered is final**: the listing in the answer does not show the document,
and no later state has it. -/
theorem deleted_of_run (cfg : Config) (w : World)
    (hrows : ∀ d ∈ w.docs.rows, d.id ∈ w.createdIds) (es₀ es : List Event) (s t : Sys)
    (user : User) (id : String) (reply : Reply)
    (hfresh : Meets (step cfg) FreshId (Sys.boot w) (es₀ ++ .request (.deleteFile user id) :: es))
    (hs : run (step cfg) (Sys.boot w) es₀ = some s)
    (h : run (step cfg) s (.request (.deleteFile user id) :: es) = some t)
    (ht : t.pc? s.ops.length = some (.done (.ok reply))) :
    ∃ r, reply = .response r ∧ (∀ x ∈ r.uploadedData, x.id ≠ id) ∧
      t.world.docs.findUnique id = none := by
  obtain ⟨s', hs', hrest⟩ := (run_cons_eq_some _).1 h
  obtain rfl := Option.some.inj hs'
  obtain ⟨es₁, env, es₂, s₁, s₂, docs, rfl, hs₁, hs₂, hdocs, hw, ht₂, a, ha⟩ :=
    exists_deleted (pc?_spawn s _) rfl hrest ht
  obtain ⟨hcreated₁, hafter⟩ := created_fresh hrows hfresh hs hs' hs₁ hs₂
  have hcreated : id ∈ s₂.world.createdIds := by
    obtain ⟨hid, -⟩ := Table.delete_eq_some.1 hdocs
    obtain ⟨d, hd, rfl⟩ := List.mem_map.1 hid
    rw [hw]
    exact hcreated₁ d hd
  have hgone : s₂.world.docs.findUnique id = none := by
    rw [hw]
    exact Table.findUnique_delete hdocs
  obtain ⟨r, rfl, hentries⟩ := ha.entries
  refine ⟨r, rfl, fun x hx hid => ?_, (evolves_run hafter ht₂).gone hcreated hgone⟩
  obtain ⟨d, hd, -, rfl⟩ := hentries x hx
  have hnone := (ha.evolves hafter).gone hcreated hgone
  exact Table.findUnique_eq_none.1 hnone (List.mem_map.2 ⟨d, hd, hid⟩)

/-- **A client reads its own replacement**: a step of the request puts the title, when one is sent,
and the file into the row, and the listing that is read afterwards for the answer shows this version
of the document, or a later one that others have made. -/
theorem replaced_of_run (cfg : Config) (w : World)
    (hrows : ∀ d ∈ w.docs.rows, d.id ∈ w.createdIds) (es₀ es : List Event) (s t : Sys)
    (user : User) (id : String) (title : Option String) (file : MulterFile) (reply : Reply)
    (hfresh : Meets (step cfg) FreshId (Sys.boot w)
      (es₀ ++ .request (.replaceFile user id title file) :: es))
    (hs : run (step cfg) (Sys.boot w) es₀ = some s)
    (h : run (step cfg) s (.request (.replaceFile user id title file) :: es) = some t)
    (ht : t.pc? s.ops.length = some (.done (.ok reply))) :
    ∃ r es₁ a env b es₂ c d d', reply = .response r ∧
      .request (.replaceFile user id title file) :: es =
        es₁ ++ .resume s.ops.length env :: es₂ ∧
      run (step cfg) s es₁ = some a ∧ step cfg a (.resume s.ops.length env) = some b ∧
      d ∈ a.world.docs.rows ∧ d.id = id ∧
      d' ∈ b.world.docs.rows ∧ d.Replaces cfg title file d' ∧
      Listed cfg user b es₂ reply c ∧ ∀ x ∈ r.uploadedData, x.id = id → d'.listed.Evolves x := by
  obtain ⟨s', hs', hrest⟩ := (run_cons_eq_some _).1 h
  obtain ⟨es₁, env, es₂, s₁, s₂, env', minioKey, docs, rfl, hs₁, hs₂, hdocs, hw, ht₂, a, ha⟩ :=
    exists_replaced (pc?_replaceFile hs' hrest ht) rfl hrest ht
  obtain ⟨hcreated, hafter⟩ := created_fresh hrows hfresh hs hs' hs₁ hs₂
  obtain ⟨hid, -⟩ := Table.update_eq_some.1 hdocs
  obtain ⟨d, hd, rfl⟩ := List.mem_map.1 hid
  have hnew : replaceDoc cfg env' title file minioKey d ∈ s₂.world.docs.rows := by
    rw [hw]
    exact (Table.mem_update hdocs).2 (Or.inr ⟨d, hd, rfl, rfl⟩)
  obtain ⟨r, rfl, hentries⟩ := ha.entries
  refine ⟨r, _ :: es₁, s₁, env, s₂, es₂, a, d, _, rfl, rfl, (run_cons_some _ es₁ hs').trans hs₁,
    hs₂, hd, rfl, hnew, replaceDoc_replaces cfg env' file minioKey title d, ha, fun x hx hid => ?_⟩
  obtain ⟨d', hd', -, rfl⟩ := hentries x hx
  have hcreated' : d.id ∈ s₂.world.createdIds := by
    rw [hw]
    exact hcreated d hd
  exact ((ha.evolves hafter).of_id hnew hd' hid hcreated').listed

/-- **A client never reads backwards**: when one listing has been answered before another is asked
for, what the second one says about a document is the same or later. -/
theorem monotonic_of_run (cfg : Config) (w : World)
    (hrows : ∀ d ∈ w.docs.rows, d.id ∈ w.createdIds) (es₀ es₁ es₂ : List Event) (s t v : Sys)
    (q₁ q₂ : Request) (user : User) (r₁ r₂ : Response) (hq₁ : q₁.lists = some user)
    (hq₂ : q₂.lists = some user)
    (hfresh : Meets (step cfg) FreshId (Sys.boot w)
      (es₀ ++ (.request q₁ :: es₁ ++ .request q₂ :: es₂)))
    (hs : run (step cfg) (Sys.boot w) es₀ = some s)
    (ht : run (step cfg) s (.request q₁ :: es₁) = some t)
    (hv : run (step cfg) t (.request q₂ :: es₂) = some v)
    (hr₁ : t.pc? s.ops.length = some (.done (.ok (.response r₁))))
    (hr₂ : v.pc? t.ops.length = some (.done (.ok (.response r₂)))) :
    ∀ x ∈ r₁.uploadedData, ∀ y ∈ r₂.uploadedData, y.id = x.id → x.Evolves y := by
  obtain ⟨s', hs', hst⟩ := (run_cons_eq_some _).1 ht
  obtain ⟨t', ht', htv⟩ := (run_cons_eq_some _).1 hv
  obtain ⟨a₁, h₁⟩ := exists_listed hq₁ hs' hst hr₁
  obtain ⟨a₂, h₂⟩ := exists_listed hq₂ ht' htv hr₂
  replace h₁ := h₁.cons hs'
  replace h₂ := h₂.cons ht'
  obtain ⟨_, ⟨⟩, hentries₁⟩ := h₁.entries
  obtain ⟨_, ⟨⟩, hentries₂⟩ := h₂.entries
  intro x hx y hy hid
  obtain ⟨d₁, hd₁, -, rfl⟩ := hentries₁ x hx
  obtain ⟨d₂, hd₂, -, rfl⟩ := hentries₂ y hy
  -- from the state of the first listing to the end of its request, and on to the second one
  obtain ⟨fs, fs', docs, b, r, hes, ha₁, -⟩ := h₁
  rw [hes, List.append_assoc, ← List.append_assoc] at hfresh
  have hboot : run (step cfg) (Sys.boot w) (es₀ ++ fs) = some a₁ :=
    (run_append_eq_some _).2 ⟨s, hs, ha₁⟩
  have hrest := hfresh.of_run hboot
  have hend : run (step cfg) a₁ fs' = some t := by
    rw [hes, run_append, ha₁] at ht
    exact ht
  have hev := (evolves_run hrest.of_append hend).trans (h₂.evolves (hrest.of_run hend))
  exact (hev.of_id hd₁ hd₂ hid (row_created_run hrows hfresh.of_append hboot d₁ hd₁)).listed

end Run

/-! ### The requests of one client, one after the other -/

/-- The row after the replacement. -/
def replacedDoc : KnowledgeDoc :=
  replaceDoc exampleConfig { now := 1 } "second" ⟨"second.txt", "text/plain", [3], 1⟩
    "2025/01/k1_second.txt" uploadedDoc

/-- The replacement up to its answer. -/
def replaceAnswered : List Event :=
  replaceRun ++ [.resume 2 { order := [replacedDoc] }, .resume 2 {}, .resume 2 {}]

/-- The calls of `findAll`. -/
def listing : List Event :=
  [.resume 3 { order := [replacedDoc] }, .resume 3 {}]

def listRun : List Event :=
  .request (.findAll alice) :: listing

def deleteRun : List Event :=
  [.request (.deleteFile alice "d0"), .resume 4 {}, .resume 4 {}, .resume 4 {}, .resume 4 {},
    .resume 4 {}]

/-- What the replacement and the listing are answered with. -/
def replacedResponse : Response where
  uploadedData := [⟨"d0", "second", "second.txt", 1, .UPLOADED, 2, 0⟩]
  total := 1
  canUpload := 9

/-- The server before and after a part of a run, and what the last request is answered with. -/
theorem exists_reply (es fs : List Event) (i : ℕ) (result : Except Exception Reply)
    (h : (run (step exampleConfig) (Sys.boot World.empty) (es ++ fs)).map (fun t => t.pc? i) =
      some (some (.done result)))
    (hlen : (run (step exampleConfig) (Sys.boot World.empty) es).map (fun s => s.ops.length) =
      some i) :
    ∃ s t, run (step exampleConfig) (Sys.boot World.empty) es = some s ∧
      run (step exampleConfig) s fs = some t ∧ t.pc? s.ops.length = some (.done result) := by
  obtain ⟨t, ht, hpc⟩ := Option.map_eq_some_iff.1 h
  obtain ⟨s, hs, hst⟩ := (run_append_eq_some _).1 ht
  rw [hs] at hlen
  obtain rfl : s.ops.length = i := Option.some.inj hlen
  exact ⟨s, t, hs, hst, hpc⟩

theorem listed_listRun : ∃ s s' a, run (step exampleConfig) (Sys.boot World.empty)
      (uploadRun ++ replaceAnswered) = some s ∧
    step exampleConfig s (.request (.findAll alice)) = some s' ∧
    Listed exampleConfig alice s' listing (.response replacedResponse) a := by
  obtain ⟨s, t, hs, hst, hpc⟩ := exists_reply (uploadRun ++ replaceAnswered) listRun 3
    (.ok (.response replacedResponse)) (by rfl) (by rfl)
  obtain ⟨s', a, hs', ha⟩ := listed_of_run exampleConfig s t (.findAll alice) alice rfl _ _ hst hpc
  exact ⟨s, s', a, hs, hs', ha⟩

theorem deleted_deleteRun : ∃ s t, run (step exampleConfig) (Sys.boot World.empty)
      (uploadRun ++ replaceAnswered ++ listRun) = some s ∧
    run (step exampleConfig) s deleteRun = some t ∧ t.world.docs.findUnique "d0" = none := by
  obtain ⟨s, t, hs, hst, hpc⟩ := exists_reply (uploadRun ++ replaceAnswered ++ listRun)
    deleteRun 4 (.ok (.response (formatResponse [] 0))) (by rfl) (by rfl)
  obtain ⟨r, -, -, hgone⟩ := deleted_of_run exampleConfig World.empty
    (fun _ hd => absurd hd List.not_mem_nil) _ _ s t alice "d0" _ (by decide) hs hst hpc
  exact ⟨s, t, hs, hst, hgone⟩

theorem replaced_replaceAnswered : ∃ (s t : Sys) (d d' : KnowledgeDoc),
    run (step exampleConfig) (Sys.boot World.empty) uploadRun = some s ∧
      run (step exampleConfig) s replaceAnswered = some t ∧
      d.id = "d0" ∧ d'.title = "second" ∧ d'.version = d.version + 1 ∧
      ∀ x ∈ replacedResponse.uploadedData, x.id = "d0" → d'.listed.Evolves x := by
  obtain ⟨s, t, hs, hst, hpc⟩ := exists_reply uploadRun replaceAnswered 2
    (.ok (.response replacedResponse)) (by rfl) (by rfl)
  obtain ⟨r, _, a, env, b, _, c, d, d', heq, -, -, -, -, hid, -, hreplaces, -, hentries⟩ :=
    replaced_of_run exampleConfig World.empty (fun _ hd => absurd hd List.not_mem_nil) uploadRun
      _ s t alice "d0" "second" ⟨"second.txt", "text/plain", [3], 1⟩ _ (by decide) hs hst hpc
  cases heq
  exact ⟨s, t, d, d', hs, hst, hid, hreplaces.title, hreplaces.version, hentries⟩

theorem monotonic_listRun : ∃ s t v,
    run (step exampleConfig) (Sys.boot World.empty) uploadRun = some s ∧
      run (step exampleConfig) s replaceAnswered = some t ∧
      run (step exampleConfig) t listRun = some v ∧
      ∀ x ∈ replacedResponse.uploadedData, ∀ y ∈ replacedResponse.uploadedData, y.id = x.id →
        x.Evolves y := by
  obtain ⟨s, t, hs, hst, hpc⟩ := exists_reply uploadRun replaceAnswered 2
    (.ok (.response replacedResponse)) (by rfl) (by rfl)
  obtain ⟨t', v, ht', htv, hpc'⟩ := exists_reply (uploadRun ++ replaceAnswered) listRun 3
    (.ok (.response replacedResponse)) (by rfl) (by rfl)
  obtain rfl : t = t' := by
    rw [run_append, hs, Option.bind_some, hst] at ht'
    exact Option.some.inj ht'
  refine ⟨s, t, v, hs, hst, htv, ?_⟩
  exact monotonic_of_run exampleConfig World.empty (fun _ hd => absurd hd List.not_mem_nil)
    uploadRun _ _ s t v (.replaceFile alice "d0" "second" ⟨"second.txt", "text/plain", [3], 1⟩)
    (.findAll alice) alice _ _ rfl rfl (by decide) hs hst htv hpc hpc'

end ProtostarNest.Knowledge
