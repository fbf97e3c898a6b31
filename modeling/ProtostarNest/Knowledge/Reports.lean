import ProtostarNest.Knowledge.Dispatch

/-!
# Error texts and results

The columns `error_message` and `meta_data` are written by the webhook only, and an update leaves
a column alone that it is not given.  `descriptive_iff` says for which runs the two columns of
every row describe the status that the row has now, in every state: each write of the status has
to find the columns in order, since none of them clears what the writes before it have left.
-/

namespace ProtostarNest.Knowledge

open Transition Queue

/-- The column `meta_data` holds the worker's result. -/
def KnowledgeDoc.HasResult (d : KnowledgeDoc) : Prop :=
  match d.metaData with
  | some (.result _ _ _ _) => True
  | _ => False

/-- Neither an error text nor a result. -/
def KnowledgeDoc.Clean (d : KnowledgeDoc) : Prop := d.errorMessage = none ∧ ¬ d.HasResult

instance (d : KnowledgeDoc) : Decidable d.HasResult :=
  match h : d.metaData with
  | none => isFalse fun hd => by rw [KnowledgeDoc.HasResult, h] at hd; exact hd
  | some .empty => isFalse fun hd => by rw [KnowledgeDoc.HasResult, h] at hd; exact hd
  | some (.result _ _ _ _) => isTrue (by rw [KnowledgeDoc.HasResult, h]; trivial)

instance (d : KnowledgeDoc) : Decidable d.Clean := inferInstanceAs (Decidable (_ ∧ _))

/-- The status of the row was reported for the version that the row has now: the last webhook of
the version answers a job with its key. -/
def ReportedNow (w : World) (d : KnowledgeDoc) : Prop :=
  ∃ job ∈ w.jobs, lastAnswer (w.log d.id) = some job ∧ job.docId = d.id ∧
    job.minioKey = d.minioKey

instance (w : World) (d : KnowledgeDoc) : Decidable (ReportedNow w d) :=
  inferInstanceAs (Decidable (∃ job ∈ w.jobs, _))

/-- A row with an error text has failed and a row with a result has completed, each as reported
for its version. -/
def Descriptive (w : World) : Prop :=
  ∀ d ∈ w.docs.rows, (d.errorMessage ≠ none → d.status = .FAILED ∧ ReportedNow w d) ∧
    (d.HasResult → d.status = .COMPLETED ∧ ReportedNow w d)

instance (w : World) : Decidable (Descriptive w) :=
  inferInstanceAs (Decidable (∀ d ∈ w.docs.rows, _))

/-- What a webhook may meet on its row: no old error text below a `COMPLETED`, and, if it leaves
a result or an error text, the key of the job that it answers. -/
def RagWebhookDto.Describes (dto : RagWebhookDto) (answers : Option Job) (d : KnowledgeDoc) :
    Prop :=
  (dto.status = .COMPLETED → d.errorMessage = none) ∧
    (dto.status = .COMPLETED → dto.resultMeta ≠ none →
      answers.map Job.minioKey = some d.minioKey) ∧
    (dto.status = .FAILED → dto.errorMessage.getD d.errorMessage ≠ none →
      answers.map Job.minioKey = some d.minioKey)

instance (dto : RagWebhookDto) (answers : Option Job) (d : KnowledgeDoc) :
    Decidable (dto.Describes answers d) :=
  inferInstanceAs (Decidable (_ ∧ _))

/-- Each write of a status meets columns that it can leave as they are. -/
def WritesDescribe (s : Sys) : Event → Prop
  | .resume i env =>
      match s.pc? i with
      | some (.replaceUpdate _ id _ _ _) =>
          env.fail = none → ∀ d ∈ s.world.docs.rows, d.id = id → d.Clean
      | some (.dispatchUpdate doc _) =>
          env.fail = none → ∀ d ∈ s.world.docs.rows, d.id = doc.id → d.Clean
      | some (.webhookUpdate dto answers) =>
          env.fail = none → metaDataToUpdate env dto ≠ none →
            ∀ d ∈ s.world.docs.rows, d.id = dto.docId → dto.Describes answers d
      | _ => True
  | .request _ => True

section Descriptive

variable {cfg : Config} {s s' : Sys} {e : Event} {w w' : World} {env : Env} {pc pc' : Pc}
  {d : KnowledgeDoc} {dto : RagWebhookDto} {answers : Option Job} {metaData : MetaData}

theorem ReportedNow.mono (hd : ReportedNow w d) (h : Advance cfg w env pc w' pc')
    (hlog : w'.log d.id = w.log d.id) : ReportedNow w' d := by
  obtain ⟨job, hjob, hlast, heq⟩ := hd
  exact ⟨job, h.jobs_subset hjob, by rw [hlog, hlast], heq⟩

/-- The metadata that a webhook writes hold a result when the worker has completed and sent
one. -/
theorem hasResult_webhookDoc (hmeta : metaDataToUpdate env dto = some metaData) :
    (webhookDoc env dto metaData d).HasResult ↔
      dto.status = .COMPLETED ∧ dto.resultMeta ≠ none := by
  unfold metaDataToUpdate at hmeta
  show (match some metaData with
    | some (MetaData.result _ _ _ _) => True
    | _ => False) ↔ _
  split_ifs at hmeta with hstatus
  · split at hmeta <;> rename_i hresult
    · cases hmeta
      simp [hresult]
    · cases hmeta
    · cases hmeta
      simp [hstatus, hresult]
  · cases hmeta
    simp [hstatus]

/-- The row that a webhook writes, and the log after it. -/
theorem reportedNow_webhookDoc (h : Advance cfg w env pc w' pc')
    (hlog : w'.log d.id = .webhook d.id answers :: w.log d.id)
    (hpc : ∀ job ∈ answers, job ∈ w.jobs ∧ job.docId = dto.docId) (hid : d.id = dto.docId)
    (hkey : answers.map Job.minioKey = some d.minioKey) :
    ReportedNow w' (webhookDoc env dto metaData d) := by
  obtain ⟨job, rfl, hjobKey⟩ := Option.map_eq_some_iff.1 hkey
  obtain ⟨hjob, hdoc⟩ := hpc job rfl
  refine ⟨job, h.jobs_subset hjob, ?_, hdoc.trans hid.symm, hjobKey⟩
  show lastAnswer (w'.log d.id) = some job
  rw [hlog, lastAnswer]

/-- The only key that a row can be reported for right after a webhook. -/
theorem key_of_reportedNow (hlog : w'.log d.id = .webhook d.id answers :: w.log d.id)
    (h : ReportedNow w' (webhookDoc env dto metaData d)) :
    answers.map Job.minioKey = some d.minioKey := by
  obtain ⟨job, -, hlast, -, hkey⟩ := h
  have hanswers : lastAnswer (w'.log d.id) = some job := hlast
  rw [hlog, lastAnswer] at hanswers
  rw [hanswers, Option.map_some]
  exact congrArg some hkey

/-- A call keeps the property if each status that it writes describes its row. -/
theorem Descriptive.advance (hw : Descriptive w) (h : Advance cfg w env pc w' pc')
    (hpc : Answerable w pc)
    (hreplace : ∀ user id title file minioKey, pc = .replaceUpdate user id title file minioKey →
      env.fail = none → ∀ d ∈ w.docs.rows, d.id = id → d.Clean)
    (hmark : ∀ doc rest, pc = .dispatchUpdate doc rest → env.fail = none →
      ∀ d ∈ w.docs.rows, d.id = doc.id → d.Clean)
    (hanswer : ∀ dto answers, pc = .webhookUpdate dto answers → env.fail = none →
      metaDataToUpdate env dto ≠ none → ∀ d ∈ w.docs.rows, d.id = dto.docId →
        dto.Describes answers d) : Descriptive w' := by
  intro d hd
  cases h.row hd with
  | same _ _ hd₀ hlog =>
    refine ⟨fun herror => ?_, fun hresult => ?_⟩
    · exact ⟨((hw d hd₀).1 herror).1, ((hw d hd₀).1 herror).2.mono h hlog⟩
    · exact ⟨((hw d hd₀).2 hresult).1, ((hw d hd₀).2 hresult).2.mono h hlog⟩
  | created user file minioKey hfail hlog =>
    exact ⟨fun herror => absurd rfl herror, fun hresult => hresult.elim⟩
  | replaced user title file minioKey d₀ hfail hd₀ hlog =>
    obtain ⟨herror, hresult⟩ := hreplace user _ title file minioKey rfl hfail d₀ hd₀ rfl
    exact ⟨fun hne => absurd herror hne, fun hres => absurd hres hresult⟩
  | dispatched doc rest d₀ hfail hd₀ hid hlog =>
    obtain ⟨herror, hresult⟩ := hmark doc rest rfl hfail d₀ hd₀ hid
    exact ⟨fun hne => absurd herror hne, fun hres => absurd hres hresult⟩
  | answered dto answers metaData d₀ hfail hmeta hd₀ hid hlog =>
    obtain ⟨hold, hcompleted, hfailed⟩ :=
      hanswer dto answers rfl hfail (by rw [hmeta]; exact Option.some_ne_none _) d₀ hd₀ hid
    refine ⟨fun herror => ?_, fun hresult => ?_⟩
    · rcases dto.status_mem with hstatus | hstatus
      · have hnone : (webhookDoc env dto metaData d₀).errorMessage = none := by
          simp [webhookDoc, hstatus, hold hstatus]
        exact absurd hnone herror
      · have hget : (webhookDoc env dto metaData d₀).errorMessage =
            dto.errorMessage.getD d₀.errorMessage := by
          simp [webhookDoc, hstatus]
        rw [hget] at herror
        exact ⟨hstatus, reportedNow_webhookDoc h hlog hpc hid (hfailed hstatus herror)⟩
    · obtain ⟨hstatus, hsent⟩ := (hasResult_webhookDoc hmeta).1 hresult
      exact ⟨hstatus, reportedNow_webhookDoc h hlog hpc hid (hcompleted hstatus hsent)⟩

theorem Descriptive.step (hs : Descriptive s.world) (hp : AnswersPushed s)
    (hwrites : WritesDescribe s e) (h : step cfg s e = some s') : Descriptive s'.world := by
  refine world_step hs h fun i env op w pc he hc => ?_
  subst he
  simp only [WritesDescribe, s.pc?_of_getElem? hc.op_eq] at hwrites
  refine hs.advance hc.advance (hp i op hc.op_eq) ?_ ?_ ?_
  · intro user id title file minioKey hpc
    simpa only [hpc] using hwrites
  · intro doc rest hpc
    simpa only [hpc] using hwrites
  · intro dto answers hpc
    simpa only [hpc] using hwrites

/-- The step of a replacement that writes the row. -/
theorem Calls.replace {i : ℕ} {op : Op} (h : Calls cfg s s' i env op w pc) {user : User}
    {id : String} {title : Option String} {file : MulterFile} {minioKey : String}
    (hpc : op.pc = .replaceUpdate user id title file minioKey) (hfail : env.fail = none)
    (hd : d ∈ s.world.docs.rows) (hid : d.id = id) :
    replaceDoc cfg env title file minioKey d ∈ s'.world.docs.rows := by
  have hadv := h.advance
  rw [hpc] at hadv
  rw [h.world]
  cases hadv with
  | stop pc result hpc => cases hpc
  | replaced user id title file minioKey docs hfail hdocs =>
    exact (Table.mem_update hdocs).2 (Or.inr ⟨d, hd, hid, rfl⟩)
  | replaceFailed user id title file minioKey e hno =>
    rcases hno with hno | hno
    · exact absurd hfail hno
    · exact absurd (hid ▸ List.mem_map_of_mem hd) hno

/-- A row whose status only the dispatcher or an owner sets is clean in a descriptive table. -/
theorem Descriptive.clean (hw : Descriptive w) (hd : d ∈ w.docs.rows)
    (hfailed : d.status ≠ .FAILED) (hcompleted : d.status ≠ .COMPLETED) : d.Clean := by
  constructor
  · by_contra hne
    exact hfailed ((hw d hd).1 hne).1
  · intro hresult
    exact hcompleted ((hw d hd).2 hresult).1

/-- What a descriptive table after a webhook says about the row before it. -/
theorem Descriptive.describes (hw : Descriptive w')
    (hmeta : metaDataToUpdate env dto = some metaData)
    (hrow : webhookDoc env dto metaData d ∈ w'.docs.rows)
    (hlog : w'.log d.id = .webhook d.id answers :: w.log d.id) : dto.Describes answers d := by
  obtain ⟨herror, hresult⟩ := hw _ hrow
  refine ⟨fun hstatus => ?_, fun hstatus hsent => ?_, fun hstatus hne => ?_⟩
  · by_contra hne
    have hkept : (webhookDoc env dto metaData d).errorMessage = d.errorMessage := by
      simp [webhookDoc, hstatus]
    have hfailed : dto.status = .FAILED := (herror (by rw [hkept]; exact hne)).1
    rw [hstatus] at hfailed
    cases hfailed
  · exact key_of_reportedNow hlog
      (hresult ((hasResult_webhookDoc hmeta).2 ⟨hstatus, hsent⟩)).2
  · have hget : (webhookDoc env dto metaData d).errorMessage =
        dto.errorMessage.getD d.errorMessage := by
      simp [webhookDoc, hstatus]
    exact key_of_reportedNow hlog (herror (by rw [hget]; exact hne)).2

/-- **The error text and the result of every row describe its status, all along a run, iff each
write of a status meets columns that describe the status written.** -/
theorem descriptive_iff (cfg : Config) (es : List Event) :
    (∀ s, Visits (step cfg) (Sys.boot World.empty) es s → Descriptive s.world) ↔
      Meets (step cfg) WritesDescribe (Sys.boot World.empty) es := by
  constructor
  · intro hall
    refine meets_of_visits fun s e u hs hu hstep => ?_
    cases e with
    | request r => trivial
    | resume i env =>
      have hu := hall u hu
      simp only [WritesDescribe]
      split
      · rename_i user id title file minioKey hpc
        intro hfail d hd hid
        obtain ⟨op, w, pc', hop, hc⟩ := calls_of_target hstep hpc (by simp [Pc.target])
        have hclean : (replaceDoc cfg env title file minioKey d).Clean :=
          hu.clean (hc.replace hop hfail hd hid) (by simp [replaceDoc]) (by simp [replaceDoc])
        exact hclean
      · rename_i doc rest hpc
        intro hfail d hd hid
        obtain ⟨op, w, pc', hop, hc⟩ := calls_of_target hstep hpc (by simp [Pc.target])
        have hclean : (processingDoc env d).Clean :=
          hu.clean (hc.mark hop hfail hd hid).1 (by simp [processingDoc]) (by simp [processingDoc])
        exact hclean
      · rename_i dto answers hpc
        intro hfail hmeta d hd hid
        obtain ⟨op, w, pc', hop, hc⟩ := calls_of_target hstep hpc (by simp [Pc.target])
        obtain ⟨metaData, hmeta', hrow, hlog⟩ := hc.answer hop hfail hmeta hd hid
        exact hu.describes hmeta' hrow hlog
      · trivial
  · intro hmeets s hs
    have hkeep : ∀ s e s', (Descriptive s.world ∧ AnswersPushed s) → WritesDescribe s e →
        step cfg s e = some s' → Descriptive s'.world ∧ AnswersPushed s' := by
      rintro s e s' ⟨hd, hp⟩ hwrites hstep
      exact ⟨hd.step hp hwrites hstep, hp.step hstep⟩
    have hboot : Descriptive World.empty ∧ AnswersPushed (Sys.boot World.empty) :=
      ⟨fun d hd => absurd hd List.not_mem_nil, fun j op hop => by cases hop⟩
    exact (invariant_of_meets hkeep hboot hmeets s hs).1

/-! One request after the other: a failure is reported, and the owner replaces the file. -/

/-- A request comes when those before it are done. -/
def InTurn (s : Sys) : Event → Prop
  | .request _ => ∀ op ∈ s.ops, op.value ≠ none
  | .resume _ _ => True

instance (s : Sys) (e : Event) : Decidable (InTurn s e) := by
  rcases e with r | ⟨i, env⟩
  · exact inferInstanceAs (Decidable (∀ op ∈ s.ops, _))
  · exact instDecidableTrue

def failedDto : RagWebhookDto := ⟨"d0", .FAILED, some (some "no text layer"), none, Or.inr rfl⟩

def staleErrorRun : List Event :=
  uploadRun ++
    [.request .dispatchPendingTasks, .resume 2 { order := [uploadedDoc] }, .resume 2 {},
      .resume 2 {}, .request (.updateDocStatusViaWebhook failedDto (some uploadedDoc.job)),
      .resume 3 {}, .request (.replaceFile alice "d0" "second" exampleFile), .resume 4 {},
      .resume 4 { uuid := "k1" }, .resume 4 {}, .resume 4 {}]

theorem staleError_not_descriptive :
    ¬ ∀ (cfg : Config) (es : List Event), Meets (step cfg) InTurn (Sys.boot World.empty) es →
      ∀ s, Visits (step cfg) (Sys.boot World.empty) es s → Descriptive s.world := by
  intro h
  have hrun : (run (step exampleConfig) (Sys.boot World.empty) staleErrorRun).map
      (fun s => decide (Descriptive s.world)) = some false := by decide +kernel
  obtain ⟨s, hs, hlast⟩ := Visits.of_run_map hrun
  exact of_decide_eq_false hlast
    (h exampleConfig staleErrorRun (by decide +kernel) s hs)

end Descriptive

end ProtostarNest.Knowledge
