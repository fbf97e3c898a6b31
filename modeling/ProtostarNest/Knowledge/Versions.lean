import ProtostarNest.Knowledge.Preserved

/-!
# The life of a document

Whatever the requests, the dispatcher and the worker do to a row, in whatever order their calls
interleave, it changes in few ways.  Between any two moments its owner and its date of creation
stay, its version never falls, and within one version only the columns of the dispatcher and of
the worker change.

* `KnowledgeDoc.Evolves`: what may become of a row;
* `World.Evolves`: what may become of the table, in which no deleted row comes back;
* `evolves_step`, `evolves_run`: each step, and so each run, is such a change;
* `evolves_of_run`.
-/

namespace ProtostarNest.Knowledge

open Transition Queue

/-- A later state of the row. A version that is taken from the queue never waits again. -/
structure KnowledgeDoc.Evolves (d d' : KnowledgeDoc) : Prop where
  id : d'.id = d.id
  uploaderId : d'.uploaderId = d.uploaderId
  createdAt : d'.createdAt = d.createdAt
  version : d.version ≤ d'.version
  content : d'.version = d.version → d'.content = d.content
  waiting : d'.version = d.version → d'.status = .UPLOADED → d.status = .UPLOADED
  reported : d.metaData.isSome → d'.metaData.isSome

namespace KnowledgeDoc.Evolves

variable {d d' d'' : KnowledgeDoc}

theorem refl (d : KnowledgeDoc) : d.Evolves d :=
  ⟨rfl, rfl, rfl, Nat.le_refl _, fun _ => rfl, fun _ h => h, fun h => h⟩

theorem version_eq (h : d.Evolves d') (h' : d'.Evolves d'') (heq : d''.version = d.version) :
    d'.version = d.version ∧ d''.version = d'.version := by
  have hle := h.version
  have hle' := h'.version
  omega

theorem trans (h : d.Evolves d') (h' : d'.Evolves d'') : d.Evolves d'' where
  id := h'.id.trans h.id
  uploaderId := h'.uploaderId.trans h.uploaderId
  createdAt := h'.createdAt.trans h.createdAt
  version := Nat.le_trans h.version h'.version
  content := fun heq => by
    obtain ⟨hfirst, hsecond⟩ := h.version_eq h' heq
    exact (h'.content hsecond).trans (h.content hfirst)
  waiting := fun heq hwait => by
    obtain ⟨hfirst, hsecond⟩ := h.version_eq h' heq
    exact h.waiting hfirst (h'.waiting hsecond hwait)
  reported := fun hsome => h'.reported (h.reported hsome)

variable (cfg : Config) (env : Env)

theorem replaceDoc (title : Option String) (file : MulterFile) (minioKey : String)
    (d : KnowledgeDoc) : d.Evolves (replaceDoc cfg env title file minioKey d) :=
  ⟨rfl, rfl, rfl, Nat.le_succ _, fun heq => absurd heq (Nat.succ_ne_self _),
    fun heq => absurd heq (Nat.succ_ne_self _), fun h => h⟩

theorem processingDoc (d : KnowledgeDoc) : d.Evolves (processingDoc env d) :=
  ⟨rfl, rfl, rfl, Nat.le_refl _, fun _ => rfl, fun _ h => (by cases h), fun h => h⟩

theorem webhookDoc (dto : RagWebhookDto) (metaData : MetaData) (d : KnowledgeDoc) :
    d.Evolves (webhookDoc env dto metaData d) := by
  refine ⟨rfl, rfl, rfl, Nat.le_refl _, fun _ => rfl, fun _ hwait => ?_, fun _ => rfl⟩
  have hstatus : dto.status = .UPLOADED := hwait
  rcases dto.status_mem with hmem | hmem <;> rw [hmem] at hstatus <;> cases hstatus

end KnowledgeDoc.Evolves

/-- A later state of the table: each row was there, or it is new. -/
structure World.Evolves (w w' : World) : Prop where
  rows : ∀ d' ∈ w'.docs.rows, (∃ d ∈ w.docs.rows, d.Evolves d') ∨ d'.id ∉ w.createdIds
  created : w.createdIds ⊆ w'.createdIds

namespace World.Evolves

variable {w w' w'' : World}

theorem refl (w : World) : w.Evolves w :=
  ⟨fun d hd => Or.inl ⟨d, hd, .refl d⟩, List.Subset.refl _⟩

theorem trans (h : w.Evolves w') (h' : w'.Evolves w'') : w.Evolves w'' where
  rows := fun d'' hd'' => by
    rcases h'.rows d'' hd'' with ⟨d', hd', hev'⟩ | hnew
    · rcases h.rows d' hd' with ⟨d, hd, hev⟩ | hnew
      · exact Or.inl ⟨d, hd, hev.trans hev'⟩
      · exact Or.inr (hev'.id ▸ hnew)
    · exact Or.inr fun hmem => hnew (h.created hmem)
  created := List.Subset.trans h.created h'.created

/-- The row of an id that has been given before is a later state of the row that had it. -/
theorem of_id (h : w.Evolves w') {d d' : KnowledgeDoc} (hd : d ∈ w.docs.rows)
    (hd' : d' ∈ w'.docs.rows) (hid : d'.id = d.id) (hcreated : d.id ∈ w.createdIds) :
    d.Evolves d' := by
  rcases h.rows d' hd' with ⟨d₀, hd₀, hev⟩ | hnew
  · rw [Table.eq_of_key hd hd₀ (hid.symm.trans hev.id)]
    exact hev
  · exact absurd (hid ▸ hcreated) hnew

/-- A deleted row does not come back. -/
theorem gone (h : w.Evolves w') {id : String} (hcreated : id ∈ w.createdIds)
    (hnone : w.docs.findUnique id = none) : w'.docs.findUnique id = none := by
  refine Table.findUnique_eq_none.2 fun hmem => ?_
  obtain ⟨d', hd', rfl⟩ := List.mem_map.1 hmem
  rcases h.rows d' hd' with ⟨d, hd, hev⟩ | hnew
  · exact Table.findUnique_eq_none.1 hnone (hev.id ▸ List.mem_map_of_mem hd)
  · exact hnew hcreated

end World.Evolves

section Run

variable {cfg : Config} {s s' t : Sys} {e : Event} {es : List Event} {w w' : World} {env : Env}
  {pc pc' : Pc}

theorem Advance.evolves (h : Advance cfg w env pc w' pc')
    (hfresh : ∀ id, pc.newId env = some id → id ∉ w.createdIds) : w.Evolves w' where
  rows := fun d' hd' => by
    cases h.row hd' with
    | same _ _ hd hlog => exact Or.inl ⟨d', hd, .refl d'⟩
    | created user file minioKey hfail hlog => exact Or.inr (hfresh env.id rfl)
    | replaced user title file minioKey d hfail hd hlog =>
      exact Or.inl ⟨d, hd, .replaceDoc cfg env title file minioKey d⟩
    | dispatched doc rest d hfail hd hid hlog => exact Or.inl ⟨d, hd, .processingDoc env d⟩
    | answered dto answers metaData d hfail hmeta hd hid hlog =>
      exact Or.inl ⟨d, hd, .webhookDoc env dto metaData d⟩
  created := h.createdIds_subset

theorem evolves_step (hfresh : FreshId s e) (h : step cfg s e = some s') :
    s.world.Evolves s'.world := by
  rcases step_quiet_or_calls h with hq | ⟨i, env, op, w, pc, rfl, hc⟩
  · rw [hq.world]
    exact .refl _
  · rw [hc.world]
    exact hc.advance.evolves fun id hid => hfresh op.pc (s.pc?_of_getElem? hc.op_eq) id hid

theorem evolves_run (hfresh : Meets (step cfg) FreshId s es) (h : run (step cfg) s es = some t) :
    s.world.Evolves t.world := by
  induction es generalizing s with
  | nil => cases h; exact .refl _
  | cons e es ih =>
    obtain ⟨s₁, hs₁, h⟩ := (run_cons_eq_some _).1 h
    obtain ⟨hfresh₁, hfresh⟩ := hfresh s₁ hs₁
    exact (evolves_step hfresh₁ hs₁).trans (ih hfresh h)

/-- Each row has been created, if those at the start have. -/
theorem row_created_run (hrows : ∀ d ∈ w.docs.rows, d.id ∈ w.createdIds)
    (hfresh : Meets (step cfg) FreshId (Sys.boot w) es)
    (h : run (step cfg) (Sys.boot w) es = some s) :
    ∀ d ∈ s.world.docs.rows, d.id ∈ s.world.createdIds := by
  have hkeep : ∀ s e s', Owned s → FreshId s e → step cfg s e = some s' → Owned s' :=
    fun s e s' hs he hstep => hs.step he hstep
  have hboot : Owned (Sys.boot w) := ⟨hrows, fun _ _ _ _ hop => by cases hop⟩
  exact (invariant_of_meets hkeep hboot hfresh s (Visits.of_run h)).row_created

/-- **Between two moments of a run each document evolves**, if no id is given twice: owner and date
of creation stay, the version never falls, and one version keeps its content; and a document that
has been deleted does not come back. -/
theorem evolves_of_run (cfg : Config) (w : World)
    (hrows : ∀ d ∈ w.docs.rows, d.id ∈ w.createdIds) (es fs : List Event) (s t : Sys)
    (hfresh : Meets (step cfg) FreshId (Sys.boot w) (es ++ fs))
    (hs : run (step cfg) (Sys.boot w) es = some s) (ht : run (step cfg) s fs = some t) :
    (∀ d ∈ s.world.docs.rows, ∀ d' ∈ t.world.docs.rows, d'.id = d.id → d.Evolves d') ∧
      ∀ id ∈ s.world.createdIds, s.world.docs.findUnique id = none →
        t.world.docs.findUnique id = none := by
  have hev := evolves_run (hfresh.of_run hs) ht
  exact ⟨fun d hd d' hd' hid =>
      hev.of_id hd hd' hid (row_created_run hrows hfresh.of_append hs d hd),
    fun id hcreated hnone => hev.gone hcreated hnone⟩

end Run

instance (s : Sys) : (e : Event) → Decidable (FreshId s e)
  | .request _ => instDecidableTrue
  | .resume i env => inferInstanceAs (Decidable (∀ pc ∈ s.pc? i, ∀ id ∈ pc.newId env, _))

/-- The uploaded file is replaced. -/
def replaceRun : List Event :=
  [.request (.replaceFile alice "d0" "second" ⟨"second.txt", "text/plain", [3], 1⟩), .resume 2 {},
    .resume 2 { uuid := "k1" }, .resume 2 {}, .resume 2 { now := 1 }]

theorem evolves_replaceRun : ∃ s t, run (step exampleConfig) (Sys.boot World.empty) uploadRun =
      some s ∧ run (step exampleConfig) s replaceRun = some t ∧
    t.world.docs.rows.map KnowledgeDoc.version = [2] ∧
    ∀ d ∈ s.world.docs.rows, ∀ d' ∈ t.world.docs.rows, d'.id = d.id → d.Evolves d' := by
  have hrun : (run (step exampleConfig) (Sys.boot World.empty) (uploadRun ++ replaceRun)).map
      (fun t => t.world.docs.rows.map KnowledgeDoc.version) = some [2] := by decide
  obtain ⟨t, ht, hversion⟩ := Option.map_eq_some_iff.1 hrun
  obtain ⟨s, hs, hst⟩ := (run_append_eq_some _).1 ht
  exact ⟨s, t, hs, hst, hversion, (evolves_of_run exampleConfig World.empty
    (fun _ hd => absurd hd List.not_mem_nil) uploadRun replaceRun s t (by decide) hs hst).1⟩

end ProtostarNest.Knowledge
