import ProtostarNest.Knowledge.Batches
import ProtostarNest.Knowledge.Provenance

/-!
# What the worker is given

The dispatcher reads rows, and pushes the jobs of those rows later, when the rows may have changed
or gone.  A job still describes a version that there was: its key is that of a file which the user
whom the job names has sent, and under that key there is this file or nothing.

* `Genuine`: the row describes a file that its owner has sent, under a key of its own;
* `Truthful`: the rows, the batches of the dispatchers and the jobs are genuine, and the objects are
  the files under their keys;
* `truthful_step`: each step keeps it, while keys and ids are not repeated;
* `jobs_of_run`.
-/

namespace ProtostarNest.Knowledge

open Transition Queue

/-- The row describes a file `f` that a user `v` has sent (`Q v f`). -/
structure Genuine (cfg : Config) (Q : User → MulterFile → Prop) (w : World) (d : KnowledgeDoc) :
    Prop where
  file : ∃ v f, Q v f ∧ v.id = d.uploaderId ∧ (d.minioKey, f) ∈ w.puts ∧
    d.mimeType = f.mimetype ∧ d.contentHash = cfg.sha256 f.buffer
  bucket : d.minioBucket = cfg.bucketName
  published : (d.minioKey, d.id) ∈ w.published

structure Truthful (cfg : Config) (Q : User → MulterFile → Prop) (s : Sys) : Prop where
  rows : ∀ d ∈ s.world.docs.rows, Genuine cfg Q s.world d
  batches : ∀ (i : ℕ) (op : Op), s.ops[i]? = some op → ∀ d ∈ op.pc.batch, Genuine cfg Q s.world d
  jobs : ∀ job ∈ s.world.jobs, ∃ d, job = d.job ∧ Genuine cfg Q s.world d
  objects : ∀ k o, s.world.objects k = some o → ∃ f, (k, f) ∈ s.world.puts ∧ o = f.object

section Step

variable {cfg : Config} {Q : User → MulterFile → Prop} {s s' : Sys} {e : Event} {w w' : World}
  {env : Env} {pc pc' : Pc}

theorem Genuine.mono {d : KnowledgeDoc} (h : Genuine cfg Q w d) (hputs : w.puts ⊆ w'.puts)
    (hpublished : w.published ⊆ w'.published) : Genuine cfg Q w' d where
  file := by
    obtain ⟨v, f, hq, hv, hput, hrest⟩ := h.file
    exact ⟨v, f, hq, hv, hputs hput, hrest⟩
  bucket := h.bucket
  published := hpublished h.published

/-- A step stores files that its request holds, and forgets others. -/
theorem Advance.objects_puts (h : Advance cfg w env pc w' pc')
    (hw : ∀ k o, w.objects k = some o → ∃ f, (k, f) ∈ w.puts ∧ o = f.object) :
    ∀ k o, w'.objects k = some o → ∃ f, (k, f) ∈ w'.puts ∧ o = f.object := by
  have hput : ∀ (file : MulterFile) (minioKey : String) (k : String) (o : StoredObject),
      (w.putObject file minioKey).objects k = some o →
        ∃ f, (k, f) ∈ (w.putObject file minioKey).puts ∧ o = f.object := by
    intro file minioKey k o ho
    change Function.update w.objects minioKey (some file.object) k = some o at ho
    by_cases hk : k = minioKey
    · subst hk
      rw [Function.update_self] at ho
      exact ⟨file, List.mem_cons_self, (Option.some.inj ho).symm⟩
    · rw [Function.update_of_ne hk] at ho
      obtain ⟨f, hf, rfl⟩ := hw k o ho
      exact ⟨f, List.mem_cons_of_mem _ hf, rfl⟩
  have hremove : ∀ (minioKey k : String) (o : StoredObject),
      (w.removeObject minioKey).objects k = some o → ∃ f, (k, f) ∈ w.puts ∧ o = f.object := by
    intro minioKey k o ho
    change Function.update w.objects minioKey none k = some o at ho
    by_cases hk : k = minioKey
    · subst hk
      rw [Function.update_self] at ho
      cases ho
    · rw [Function.update_of_ne hk] at ho
      exact hw k o ho
  cases h with
  | stored user file hfail => exact hput _ _
  | replaceStored user title file doc hfail => exact hput _ _
  | oldDeleted user title file doc minioKey hfail => exact hremove _
  | objectDeleted user doc hfail => exact hremove _
  | _ => exact hw

section Calls

variable {i : ℕ} {op : Op} {P : User → Prop} {R : RagWebhookDto → Prop}
  (hk : Keyed s) (ho : Owned s) (hh : s.Holds P Q R) (hs : Truthful cfg Q s)
  (hc : Calls cfg s s' i env op w pc)

include hk ho hh hs hc in
/-- A new or replaced row describes the file that the request holds, and belongs to its user. -/
theorem genuine_rows (hk' : Keyed s') {d : KnowledgeDoc} (hd : d ∈ w.docs.rows) :
    Genuine cfg Q w d := by
  have hkeys := hc.advance.keys
  have hpublished : (d.minioKey, d.id) ∈ w.published := by
    rw [← hc.world] at hd ⊢
    exact hk'.row_published d hd
  have hold : ∀ d₀ ∈ s.world.docs.rows, Genuine cfg Q w d₀ := fun d₀ hd₀ =>
    (hs.rows d₀ hd₀).mono hkeys.puts_subset hkeys.published_subset
  have hput : ∀ p, op.pc.held = some p → p ∈ w.puts := fun p hp =>
    hkeys.puts_subset (hk.held_put i op p hc.op_eq hp).1
  have hclaims : ∀ v id, op.pc.claims = some (v, id) →
      ∀ d ∈ s.world.docs.rows, d.id = id → d.uploaderId = v.id := fun v id hclaim =>
    (ho.claims i op v id hc.op_eq hclaim).2
  have hpc := hh i op hc.op_eq
  have hrow := hc.advance.row hd
  generalize op.pc = pc₀ at hput hclaims hpc hrow
  cases hrow with
  | same _ _ hd₀ hlog => exact hold d hd₀
  | created user file minioKey hfail hlog =>
    exact ⟨⟨user, file, hpc.files user rfl file (List.mem_singleton_self _), rfl, hput _ rfl, rfl,
      rfl⟩, rfl, hpublished⟩
  | replaced user title file minioKey d₀ hfail hd₀ hlog =>
    exact ⟨⟨user, file, hpc.files user rfl file (List.mem_singleton_self _),
      (hclaims user d₀.id rfl d₀ hd₀ rfl).symm, hput _ rfl, rfl, rfl⟩, rfl, hpublished⟩
  | dispatched doc rest d₀ hfail hd₀ hid hlog =>
    obtain ⟨hfile, hbucket, -⟩ := hold d₀ hd₀
    exact ⟨hfile, hbucket, hpublished⟩
  | answered dto answers metaData d₀ hfail hmeta hd₀ hid hlog =>
    obtain ⟨hfile, hbucket, -⟩ := hold d₀ hd₀
    exact ⟨hfile, hbucket, hpublished⟩

include hs hc in
/-- What a dispatcher has in its batch it has read from the table. -/
theorem genuine_batch {d : KnowledgeDoc} (hd : d ∈ pc.batch) : Genuine cfg Q w d := by
  have hkeys := hc.advance.keys
  suffices hbefore : Genuine cfg Q s.world d from
    hbefore.mono hkeys.puts_subset hkeys.published_subset
  have hbatch : ∀ d ∈ op.pc.batch, Genuine cfg Q s.world d := hs.batches i op hc.op_eq
  rcases hc.advance.batches with ⟨doc, rest, hpc, rfl, -⟩ | ⟨-, -, -, ⟨hpending, heq, -⟩ | hsub⟩
  · rw [hpc] at hbatch
    exact hbatch d hd
  · rw [heq] at hd
    have hmem := hpending.1.subset (List.take_subset _ _ hd)
    exact hs.rows d (List.mem_filter.1 hmem).1
  · exact hbatch d (op.pc.unpushed_sublist_batch.subset (hsub.subset hd))

include hs hc in
theorem genuine_jobs {job : Job} (hjob : job ∈ w.jobs) :
    ∃ d, job = d.job ∧ Genuine cfg Q w d := by
  have hkeys := hc.advance.keys
  have hold : ∀ job ∈ s.world.jobs, ∃ d, job = d.job ∧ Genuine cfg Q w d := by
    intro job hjob
    obtain ⟨d, heq, hd⟩ := hs.jobs job hjob
    exact ⟨d, heq, hd.mono hkeys.puts_subset hkeys.published_subset⟩
  rcases hc.advance.batches with ⟨doc, rest, hpc, -, hw⟩ | ⟨hjobs, -⟩
  · have hdoc : Genuine cfg Q s.world doc :=
      hs.batches i op hc.op_eq doc (hpc ▸ List.mem_cons_self)
    have hjobs : w.jobs = s.world.jobs ++ [doc.job] := by rw [hw]
    rw [hjobs] at hjob
    rcases List.mem_append.1 hjob with hjob | hjob
    · exact hold job hjob
    · exact ⟨doc, List.mem_singleton.1 hjob,
        hdoc.mono hkeys.puts_subset hkeys.published_subset⟩
  · rw [hjobs] at hjob
    exact hold job hjob

include hk ho hh hs hc in
theorem truthful_calls (hk' : Keyed s') : Truthful cfg Q s' := by
  have hkeys := hc.advance.keys
  refine ⟨fun d hd => ?_, fun j op' hop' d hd => ?_, fun job hjob => ?_, ?_⟩
  · rw [hc.world] at hd ⊢
    exact genuine_rows hk ho hh hs hc hk' hd
  · rw [hc.world]
    rcases hc.ops_cases hop' with ⟨rfl, rfl⟩ | ⟨-, hop'⟩
    · exact genuine_batch hs hc hd
    · exact (hs.batches j op' hop' d hd).mono hkeys.puts_subset hkeys.published_subset
  · rw [hc.world] at hjob ⊢
    exact genuine_jobs hs hc hjob
  · rw [hc.world]
    exact hc.advance.objects_puts hs.objects

end Calls

theorem truthful_step {P : User → Prop} {R : RagWebhookDto → Prop} (hk : Keyed s) (ho : Owned s)
    (hh : s.Holds P Q R) (hs : Truthful cfg Q s) (hfresh : FreshKey s e)
    (h : step cfg s e = some s') : Truthful cfg Q s' := by
  rcases step_quiet_or_calls h with hq | ⟨i, env, op, w, pc, rfl, hc⟩
  · obtain ⟨hrows, hbatches, hjobs, hobjects⟩ := hs
    rw [← hq.world] at hrows hjobs hobjects
    refine ⟨hrows, fun i op hop d hd => ?_, hjobs, hobjects⟩
    rcases hq.old_or_idle i op hop with hold | ⟨hidle, -⟩
    · rw [hq.world]
      exact hbatches i op hold d hd
    · rw [hidle.batch] at hd
      cases hd
  · exact truthful_calls hk ho hh hs hc (hk.step hfresh h)

theorem holds_step {P : User → Prop} {R : RagWebhookDto → Prop} (hs : s.Holds P Q R)
    (hr : ∀ r, e = .request r → r.Sourced P Q R) (h : step cfg s e = some s') :
    s'.Holds P Q R := by
  cases e with
  | request r => exact receive_holds hs (hr r rfl) h
  | resume i env => exact resume_holds hs h

end Step

/-! ### Runs -/

/-- The user has sent the file with one of the requests. -/
def Sent (es : List Event) (v : User) (f : MulterFile) : Prop :=
  ∃ r, .request r ∈ es ∧ r.user = some v ∧ f ∈ r.files

/-- A run of the server in which all requests are among those of `es`. -/
theorem truthful_run {cfg : Config} {es : List Event} {s : Sys}
    (hfresh : Meets (step cfg) Unrepeated (Sys.boot World.empty) es)
    (hs : run (step cfg) (Sys.boot World.empty) es = some s) :
    Keyed s ∧ Truthful cfg (Sent es) s := by
  have hkeep : ∀ s e s', (Keyed s ∧ Owned s ∧ s.Holds (fun _ => True) (Sent es) (fun _ => True) ∧
      Truthful cfg (Sent es) s) → Unrepeated s e ∧ e ∈ es → step cfg s e = some s' →
        Keyed s' ∧ Owned s' ∧ s'.Holds (fun _ => True) (Sent es) (fun _ => True) ∧
          Truthful cfg (Sent es) s' := by
    rintro s e s' ⟨hk, ho, hh, ht⟩ ⟨hfresh, he⟩ hstep
    refine ⟨hk.step hfresh.1 hstep, ho.step hfresh.2 hstep, holds_step hh ?_ hstep,
      truthful_step hk ho hh ht hfresh.1 hstep⟩
    rintro r rfl
    exact ⟨fun _ _ => trivial, fun v hv f hf => ⟨r, he, hv, hf⟩, fun _ _ => trivial⟩
  have hboot : Truthful cfg (Sent es) (Sys.boot World.empty) :=
    ⟨fun _ hd => absurd hd List.not_mem_nil, fun _ _ hop => (by cases hop),
      fun _ hjob => absurd hjob List.not_mem_nil, fun _ _ ho => by cases ho⟩
  have hmeets := hfresh.and (Meets.of_forall fun (_ : Sys) e (he : e ∈ es) => he)
  obtain ⟨hk, -, -, ht⟩ := invariant_of_meets hkeep
    ⟨keyed_boot, owned_boot, fun _ _ hop => (by cases hop), hboot⟩ hmeets s (Visits.of_run hs)
  exact ⟨hk, ht⟩

/-- The document is replaced between the selection of its row and the push of its job. -/
def staleRun : List Event :=
  uploadRun ++ [.request .dispatchPendingTasks, .resume 2 { order := [uploadedDoc] },
    .request (.replaceFile alice "d0" "second" ⟨"second.txt", "text/plain", [3], 1⟩), .resume 3 {},
    .resume 3 { uuid := "k1" }, .resume 3 {}, .resume 3 {}, .resume 2 {}]

end ProtostarNest.Knowledge
