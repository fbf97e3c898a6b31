import ProtostarNest.Knowledge.System

/-!
# The dispatcher, the replacements and the webhooks

`dispatchPendingTasks` pushes the job of a row that it has read before and then sets the status of
the row to `PROCESSING`, whatever it has become in between; a webhook sets the status of its
document, whatever version the worker has seen.  Three properties of the rows depend on the order
of these steps, and each theorem says for which runs the property holds all along.

* `dispatched_iff`: a `PROCESSING` row has had a job with its key pushed;
* `resultsKept_iff`: a recorded result is not overwritten by `PROCESSING`;
* `attributed_iff`: a result on a row is about the object that the row names.

In each, the condition is about the one step that can break the property, in the state before it.
-/

namespace ProtostarNest.Knowledge

open Transition Queue

/-- A job for the row with this key is, or was, on `ai:job:queue`. -/
def Pushed (w : World) (id minioKey : String) : Prop :=
  ∃ job ∈ w.jobs, job.docId = id ∧ job.minioKey = minioKey

instance (w : World) (id minioKey : String) : Decidable (Pushed w id minioKey) :=
  inferInstanceAs (Decidable (∃ job ∈ w.jobs, _))

/-- A webhook has set the status since the version of the row was made. -/
def recorded : List Commit → Bool
  | [] => false
  | .created _ _ :: _ => false
  | .replaced _ _ :: _ => false
  | .webhook _ _ :: _ => true
  | .deleted _ :: log => recorded log
  | .dispatched _ :: log => recorded log

/-- The job that the last webhook of the version answered. -/
def lastAnswer : List Commit → Option Job
  | [] => none
  | .created _ _ :: _ => none
  | .replaced _ _ :: _ => none
  | .webhook _ answers :: _ => answers
  | .deleted _ :: log => lastAnswer log
  | .dispatched _ :: log => lastAnswer log

theorem RagWebhookDto.status_ne_processing (dto : RagWebhookDto) : dto.status ≠ .PROCESSING := by
  rcases dto.status_mem with h | h <;> rw [h] <;> decide

theorem RagWebhookDto.status_ne_uploaded (dto : RagWebhookDto) : dto.status ≠ .UPLOADED := by
  rcases dto.status_mem with h | h <;> rw [h] <;> decide

section Steps

variable {cfg : Config} {s s' : Sys} {e : Event} {i : ℕ} {env : Env} {op : Op} {w : World}
  {pc : Pc} {d : KnowledgeDoc}

/-- The step of the dispatcher that marks a row. -/
theorem Calls.mark (h : Calls cfg s s' i env op w pc) {doc : KnowledgeDoc}
    {rest : List KnowledgeDoc} (hpc : op.pc = .dispatchUpdate doc rest) (hfail : env.fail = none)
    (hd : d ∈ s.world.docs.rows) (hid : d.id = doc.id) :
    processingDoc env d ∈ s'.world.docs.rows ∧
      s'.world.log d.id = .dispatched d.id :: s.world.log d.id ∧
      s'.world.jobs = s.world.jobs := by
  have hadv := h.advance
  rw [hpc] at hadv
  rw [h.world]
  cases hadv with
  | stop pc result hpc => cases hpc
  | marked doc rest docs hfail hdocs =>
    exact ⟨(Table.mem_update hdocs).2 (Or.inr ⟨d, hd, hid, rfl⟩),
      hid ▸ World.log_commit_self rfl, rfl⟩
  | markFailed doc rest hno =>
    rcases hno with hno | hno
    · exact absurd hfail hno
    · exact absurd (hid ▸ List.mem_map_of_mem hd) hno

/-- The step of a webhook that sets the status of a row. -/
theorem Calls.answer (h : Calls cfg s s' i env op w pc) {dto : RagWebhookDto}
    {answers : Option Job} (hpc : op.pc = .webhookUpdate dto answers) (hfail : env.fail = none)
    (hmeta : metaDataToUpdate env dto ≠ none) (hd : d ∈ s.world.docs.rows)
    (hid : d.id = dto.docId) :
    ∃ metaData, metaDataToUpdate env dto = some metaData ∧
      webhookDoc env dto metaData d ∈ s'.world.docs.rows ∧
      s'.world.log d.id = .webhook d.id answers :: s.world.log d.id := by
  have hadv := h.advance
  rw [hpc] at hadv
  rw [h.world]
  cases hadv with
  | stop pc result hpc => cases hpc
  | answered dto answers metaData docs hfail hmeta hdocs =>
    exact ⟨metaData, hmeta, (Table.mem_update hdocs).2 (Or.inr ⟨d, hd, hid, rfl⟩),
      hid ▸ World.log_commit_self rfl⟩
  | answerFailed dto answers e hno =>
    rcases hno with hno | hno | hno
    · exact absurd hfail hno
    · exact absurd hno hmeta
    · exact absurd (hid ▸ List.mem_map_of_mem hd) hno

end Steps

/-! ### Every version is pushed -/

/-- A row that is `PROCESSING` has had a job with its present key pushed. -/
def Dispatched (w : World) : Prop :=
  ∀ d ∈ w.docs.rows, d.status = .PROCESSING → Pushed w d.id d.minioKey

instance (w : World) : Decidable (Dispatched w) :=
  inferInstanceAs (Decidable (∀ d ∈ w.docs.rows, _))

/-- When the dispatcher marks a row, it still has the key that the dispatcher has read, or a job
with its new key has been pushed as well. -/
def MarksPushed (s : Sys) : Event → Prop
  | .resume i env =>
      match s.pc? i with
      | some (.dispatchUpdate doc _) =>
          env.fail = none → ∀ d ∈ s.world.docs.rows, d.id = doc.id →
            d.minioKey = doc.minioKey ∨ Pushed s.world d.id d.minioKey
      | _ => True
  | .request _ => True

/-- The jobs of the rows that dispatchers are about to mark have been pushed. -/
def PushedFirst (s : Sys) : Prop :=
  ∀ (j : ℕ) (op : Op) (doc : KnowledgeDoc) (rest : List KnowledgeDoc), s.ops[j]? = some op →
    op.pc = .dispatchUpdate doc rest → doc.job ∈ s.world.jobs

section Dispatched

variable {cfg : Config} {s s' : Sys} {e : Event} {w w' : World} {env : Env} {pc pc' : Pc}

theorem Pushed.mono {id minioKey : String} (hp : Pushed w id minioKey)
    (h : Advance cfg w env pc w' pc') : Pushed w' id minioKey := by
  obtain ⟨job, hjob, heq⟩ := hp
  exact ⟨job, h.jobs_subset hjob, heq⟩

theorem Advance.pushed_of_dispatchUpdate {doc : KnowledgeDoc} {rest : List KnowledgeDoc}
    (h : Advance cfg w env pc w' pc') (hpc : pc' = .dispatchUpdate doc rest) :
    doc.job ∈ w'.jobs := by
  cases h with
  | pushed doc' rest' hfail =>
    cases hpc
    exact List.mem_append_right _ (List.mem_singleton_self _)
  | selected horder =>
    generalize env.order.take DISPATCH_TAKE = docs at hpc
    cases docs <;> cases hpc
  | pushFailed doc' rest' hfail => cases rest' <;> cases hpc
  | marked doc' rest' docs hfail hdocs => cases rest' <;> cases hpc
  | markFailed doc' rest' hfail => cases rest' <;> cases hpc
  | _ => cases hpc

theorem PushedFirst.step (hs : PushedFirst s) (h : step cfg s e = some s') : PushedFirst s' := by
  intro j op' doc rest hop' hpc'
  rcases step_quiet_or_calls h with hq | ⟨i, env, op, w, pc, -, hc⟩
  · rw [hq.world]
    rcases hq.old_or_idle j op' hop' with hold | ⟨hidle, -⟩
    · exact hs j op' doc rest hold hpc'
    · rw [hpc'] at hidle
      exact hidle.elim
  · rw [hc.world]
    rcases hc.ops_cases hop' with ⟨-, rfl⟩ | ⟨-, hold⟩
    · exact hc.advance.pushed_of_dispatchUpdate hpc'
    · exact hc.advance.jobs_subset (hs j op' doc rest hold hpc')

/-- A call keeps the property if the row that it marks, if any, has been pushed. -/
theorem Dispatched.advance (hw : Dispatched w) (h : Advance cfg w env pc w' pc')
    (hmark : ∀ doc rest, pc = .dispatchUpdate doc rest → env.fail = none →
      ∀ d ∈ w.docs.rows, d.id = doc.id → Pushed w d.id d.minioKey) : Dispatched w' := by
  intro d hd hstatus
  cases h.row hd with
  | same _ _ hd₀ hlog => exact (hw d hd₀ hstatus).mono h
  | created user file minioKey hfail hlog => cases hstatus
  | replaced user title file minioKey d₀ hfail hd₀ hlog => cases hstatus
  | dispatched doc rest d₀ hfail hd₀ hid hlog =>
    exact (hmark doc rest rfl hfail d₀ hd₀ hid).mono h
  | answered dto answers metaData d₀ hfail hmeta hd₀ hid hlog =>
    exact absurd hstatus dto.status_ne_processing

theorem Dispatched.step (hs : Dispatched s.world) (hpush : PushedFirst s) (hmark : MarksPushed s e)
    (h : step cfg s e = some s') : Dispatched s'.world := by
  refine world_step hs h fun i env op w pc he hc => ?_
  subst he
  refine hs.advance hc.advance fun doc rest hpc hfail d hd hid => ?_
  simp only [MarksPushed, s.pc?_of_getElem? hc.op_eq, hpc] at hmark
  rcases hmark hfail d hd hid with hkey | hpushed
  · exact ⟨doc.job, hpush i op doc rest hc.op_eq hpc, hid.symm, hkey.symm⟩
  · exact hpushed

/-- **Each version that is marked has been pushed, all along a run, iff each mark finds the key
that the dispatcher has read or another job with the new key.** -/
theorem dispatched_iff (cfg : Config) (es : List Event) :
    (∀ s, Visits (step cfg) (Sys.boot World.empty) es s → Dispatched s.world) ↔
      Meets (step cfg) MarksPushed (Sys.boot World.empty) es := by
  constructor
  · intro hall
    refine meets_of_visits fun s e u hs hu hstep => ?_
    cases e with
    | request r => trivial
    | resume i env =>
      simp only [MarksPushed]
      split
      · rename_i doc rest hpc
        intro hfail d hd hid
        obtain ⟨op, w, pc', hop, hc⟩ := calls_of_target hstep hpc (by simp [Pc.target])
        obtain ⟨hrow, -, hjobs⟩ := hc.mark hop hfail hd hid
        obtain ⟨job, hjob, heq⟩ := hall u hu _ hrow rfl
        exact Or.inr ⟨job, hjobs ▸ hjob, heq⟩
      · trivial
  · intro hmeets s hs
    have hkeep : ∀ s e s', (Dispatched s.world ∧ PushedFirst s) → MarksPushed s e →
        step cfg s e = some s' → Dispatched s'.world ∧ PushedFirst s' := by
      rintro s e s' ⟨hd, hp⟩ hmark hstep
      exact ⟨hd.step hp hmark hstep, hp.step hstep⟩
    have hboot : Dispatched World.empty ∧ PushedFirst (Sys.boot World.empty) :=
      ⟨fun d hd => absurd hd List.not_mem_nil, fun j op doc rest hop => by cases hop⟩
    exact (invariant_of_meets hkeep hboot hmeets s hs).1

/-! A replacement between the push and the mark of a dispatcher. -/

/-- The dispatcher reads the uploaded row and pushes its job. -/
def pushRun : List Event :=
  uploadRun ++ [.request .dispatchPendingTasks, .resume 2 { order := [uploadedDoc] }, .resume 2 {}]

/-- The owner replaces the file, up to the update of the row. -/
def replaceSteps : List Event :=
  [.request (.replaceFile alice "d0" "second" ⟨"second.txt", "text/plain", [3], 1⟩), .resume 3 {},
    .resume 3 { uuid := "k1" }, .resume 3 {}, .resume 3 {}]

def staleMarkRun : List Event := pushRun ++ replaceSteps ++ [.resume 2 {}]

theorem staleMark_not_dispatched :
    ¬ ∀ (cfg : Config) (es : List Event) (s : Sys),
      Visits (step cfg) (Sys.boot World.empty) es s → Dispatched s.world := by
  intro h
  have hrun : (run (step exampleConfig) (Sys.boot World.empty) staleMarkRun).map
      (fun s => decide (Dispatched s.world)) = some false := by decide
  obtain ⟨s, hs, hlast⟩ := Visits.of_run_map hrun
  exact of_decide_eq_false hlast (h exampleConfig staleMarkRun s hs)

end Dispatched

/-! ### No result is overwritten -/

/-- A row on which a result for its version has been recorded is not `PROCESSING`. -/
def ResultsKept (w : World) : Prop :=
  ∀ d ∈ w.docs.rows, d.status = .PROCESSING → recorded (w.log d.id) = false

instance (w : World) : Decidable (ResultsKept w) :=
  inferInstanceAs (Decidable (∀ d ∈ w.docs.rows, _))

/-- When the dispatcher marks a row, it has no result yet. -/
def MarksUnfinished (s : Sys) : Event → Prop
  | .resume i env =>
      match s.pc? i with
      | some (.dispatchUpdate doc _) =>
          env.fail = none → ∀ d ∈ s.world.docs.rows, d.id = doc.id →
            d.status ≠ .COMPLETED ∧ d.status ≠ .FAILED
      | _ => True
  | .request _ => True

/-- A status that only a webhook sets is recorded, and a new version has no result. -/
structure Recorded (w : World) : Prop where
  finished : ∀ d ∈ w.docs.rows, d.status = .COMPLETED ∨ d.status = .FAILED →
    recorded (w.log d.id) = true
  fresh : ∀ d ∈ w.docs.rows, d.status = .UPLOADED → recorded (w.log d.id) = false

section ResultsKept

variable {cfg : Config} {s s' : Sys} {e : Event} {w w' : World} {env : Env} {pc pc' : Pc}

theorem Recorded.advance (hw : Recorded w) (h : Advance cfg w env pc w' pc') : Recorded w' := by
  refine ⟨fun d hd hstatus => ?_, fun d hd hstatus => ?_⟩
  · cases h.row hd with
    | same _ _ hd₀ hlog => rw [hlog]; exact hw.finished d hd₀ hstatus
    | created user file minioKey hfail hlog => simp [newDoc] at hstatus
    | replaced user title file minioKey d₀ hfail hd₀ hlog => simp [replaceDoc] at hstatus
    | dispatched doc rest d₀ hfail hd₀ hid hlog => simp [processingDoc] at hstatus
    | answered dto answers metaData d₀ hfail hmeta hd₀ hid hlog =>
      show recorded (w'.log d₀.id) = true
      rw [hlog, recorded]
  · cases h.row hd with
    | same _ _ hd₀ hlog => rw [hlog]; exact hw.fresh d hd₀ hstatus
    | created user file minioKey hfail hlog =>
      show recorded (w'.log env.id) = false
      rw [hlog, recorded]
    | replaced user title file minioKey d₀ hfail hd₀ hlog =>
      show recorded (w'.log d₀.id) = false
      rw [hlog, recorded]
    | dispatched doc rest d₀ hfail hd₀ hid hlog => cases hstatus
    | answered dto answers metaData d₀ hfail hmeta hd₀ hid hlog =>
      exact absurd hstatus dto.status_ne_uploaded

theorem Recorded.step (hs : Recorded s.world) (h : step cfg s e = some s') :
    Recorded s'.world :=
  world_step hs h fun _ _ _ _ _ _ hc => hs.advance hc.advance

theorem recorded_empty : Recorded World.empty :=
  ⟨fun _ hd => absurd hd List.not_mem_nil, fun _ hd => absurd hd List.not_mem_nil⟩

/-- A call keeps the property if the row that it marks, if any, has no result. -/
theorem ResultsKept.advance (hw : ResultsKept w) (hr : Recorded w)
    (h : Advance cfg w env pc w' pc')
    (hmark : ∀ doc rest, pc = .dispatchUpdate doc rest → env.fail = none →
      ∀ d ∈ w.docs.rows, d.id = doc.id → d.status ≠ .COMPLETED ∧ d.status ≠ .FAILED) :
    ResultsKept w' := by
  intro d hd hstatus
  cases h.row hd with
  | same _ _ hd₀ hlog => rw [hlog]; exact hw d hd₀ hstatus
  | created user file minioKey hfail hlog => cases hstatus
  | replaced user title file minioKey d₀ hfail hd₀ hlog => cases hstatus
  | dispatched doc rest d₀ hfail hd₀ hid hlog =>
    show recorded (w'.log d₀.id) = false
    rw [hlog, recorded]
    obtain ⟨hcompleted, hfailed⟩ := hmark doc rest rfl hfail d₀ hd₀ hid
    cases hst : d₀.status with
    | UPLOADED => exact hr.fresh d₀ hd₀ hst
    | PROCESSING => exact hw d₀ hd₀ hst
    | COMPLETED => exact absurd hst hcompleted
    | FAILED => exact absurd hst hfailed
  | answered dto answers metaData d₀ hfail hmeta hd₀ hid hlog =>
    exact absurd hstatus dto.status_ne_processing

theorem ResultsKept.step (hs : ResultsKept s.world) (hr : Recorded s.world)
    (hmark : MarksUnfinished s e) (h : step cfg s e = some s') : ResultsKept s'.world := by
  refine world_step hs h fun i env op w pc he hc => ?_
  subst he
  refine hs.advance hr hc.advance fun doc rest hpc hfail d hd hid => ?_
  simp only [MarksUnfinished, s.pc?_of_getElem? hc.op_eq, hpc] at hmark
  exact hmark hfail d hd hid

/-- **No recorded result becomes `PROCESSING` again, all along a run, iff each mark finds a row
without a result.** -/
theorem resultsKept_iff (cfg : Config) (es : List Event) :
    (∀ s, Visits (step cfg) (Sys.boot World.empty) es s → ResultsKept s.world) ↔
      Meets (step cfg) MarksUnfinished (Sys.boot World.empty) es := by
  constructor
  · intro hall
    refine meets_of_visits fun s e u hs hu hstep => ?_
    cases e with
    | request r => trivial
    | resume i env =>
      simp only [MarksUnfinished]
      split
      · rename_i doc rest hpc
        intro hfail d hd hid
        obtain ⟨op, w, pc', hop, hc⟩ := calls_of_target hstep hpc (by simp [Pc.target])
        obtain ⟨hrow, hlog, -⟩ := hc.mark hop hfail hd hid
        have hkept : recorded (u.world.log d.id) = false :=
          hall u hu (processingDoc env d) hrow rfl
        rw [hlog, recorded] at hkept
        have hrec : Recorded s.world :=
          invariant (fun _ _ _ hs hstep => Recorded.step hs hstep) recorded_empty hs.reachable
        refine ⟨fun hst => ?_, fun hst => ?_⟩
        · rw [hrec.finished d hd (Or.inl hst)] at hkept
          cases hkept
        · rw [hrec.finished d hd (Or.inr hst)] at hkept
          cases hkept
      · trivial
  · intro hmeets s hs
    have hkeep : ∀ s e s', (ResultsKept s.world ∧ Recorded s.world) → MarksUnfinished s e →
        step cfg s e = some s' → ResultsKept s'.world ∧ Recorded s'.world := by
      rintro s e s' ⟨hk, hr⟩ hmark hstep
      exact ⟨hk.step hr hmark hstep, hr.step hstep⟩
    have hboot : ResultsKept World.empty ∧ Recorded World.empty :=
      ⟨fun d hd => absurd hd List.not_mem_nil, recorded_empty⟩
    exact (invariant_of_meets hkeep hboot hmeets s hs).1

/-! The webhook between the push and the mark of a dispatcher. -/

def completedDto : RagWebhookDto := ⟨"d0", .COMPLETED, none, none, Or.inl rfl⟩

def earlyAnswerRun : List Event :=
  pushRun ++ [.request (.updateDocStatusViaWebhook completedDto (some uploadedDoc.job)),
    .resume 3 {}, .resume 2 {}]

theorem earlyAnswer_not_kept :
    ¬ ∀ (cfg : Config) (es : List Event) (s : Sys),
      Visits (step cfg) (Sys.boot World.empty) es s → ResultsKept s.world := by
  intro h
  have hrun : (run (step exampleConfig) (Sys.boot World.empty) earlyAnswerRun).map
      (fun s => decide (ResultsKept s.world)) = some false := by decide
  obtain ⟨s, hs, hlast⟩ := Visits.of_run_map hrun
  exact of_decide_eq_false hlast (h exampleConfig earlyAnswerRun s hs)

end ResultsKept

/-! ### Results belong to the content -/

/-- A row with a result has it from the outcome of a job that carried its present key. -/
def Attributed (w : World) : Prop :=
  ∀ d ∈ w.docs.rows, d.status = .COMPLETED ∨ d.status = .FAILED →
    ∃ job ∈ w.jobs, lastAnswer (w.log d.id) = some job ∧ job.docId = d.id ∧
      job.minioKey = d.minioKey

instance (w : World) : Decidable (Attributed w) :=
  inferInstanceAs (Decidable (∀ d ∈ w.docs.rows, _))

/-- When a webhook sets a status, the row still has the key of the job that it answers. -/
def AnswersCurrent (s : Sys) : Event → Prop
  | .resume i env =>
      match s.pc? i with
      | some (.webhookUpdate dto answers) =>
          env.fail = none → metaDataToUpdate env dto ≠ none →
            ∀ d ∈ s.world.docs.rows, d.id = dto.docId →
              answers.map Job.minioKey = some d.minioKey
      | _ => True
  | .request _ => True

/-- The jobs that the webhooks answer have been pushed. -/
def AnswersPushed (s : Sys) : Prop :=
  ∀ (j : ℕ) (op : Op), s.ops[j]? = some op → Answerable s.world op.pc

section Attributed

variable {cfg : Config} {s s' : Sys} {e : Event} {w w' : World} {env : Env} {pc pc' : Pc}

/-- A request does not turn into a webhook. -/
theorem Advance.answerable (h : Advance cfg w env pc w' pc') (v : World) : Answerable v pc' := by
  cases h with
  | selected horder => generalize env.order.take DISPATCH_TAKE = docs; cases docs <;> trivial
  | pushFailed doc rest hfail => cases rest <;> trivial
  | marked doc rest docs hfail hdocs => cases rest <;> trivial
  | markFailed doc rest hfail => cases rest <;> trivial
  | _ => trivial

theorem Answerable.mono (hpc : Answerable w pc) (hjobs : w.jobs ⊆ w'.jobs) :
    Answerable w' pc := by
  cases pc with
  | webhookUpdate dto answers =>
    intro job hjob
    exact ⟨hjobs (hpc job hjob).1, (hpc job hjob).2⟩
  | _ => trivial

theorem AnswersPushed.step (hs : AnswersPushed s) (h : step cfg s e = some s') :
    AnswersPushed s' := by
  intro j op' hop'
  rcases step_quiet_or_calls h with hq | ⟨i, env, op, w, pc, -, hc⟩
  · rw [hq.world]
    rcases hq.old_or_idle j op' hop' with hold | ⟨-, hans⟩
    · exact hs j op' hold
    · exact hans
  · rcases hc.ops_cases hop' with ⟨-, rfl⟩ | ⟨-, hold⟩
    · exact hc.advance.answerable _
    · rw [hc.world]
      exact (hs j op' hold).mono hc.advance.jobs_subset

/-- A call keeps the property if the webhook that it processes, if any, is about the present
key of its row. -/
theorem Attributed.advance (hw : Attributed w) (h : Advance cfg w env pc w' pc')
    (hpc : Answerable w pc)
    (hcur : ∀ dto answers, pc = .webhookUpdate dto answers → env.fail = none →
      metaDataToUpdate env dto ≠ none → ∀ d ∈ w.docs.rows, d.id = dto.docId →
        answers.map Job.minioKey = some d.minioKey) : Attributed w' := by
  intro d hd hstatus
  cases h.row hd with
  | same _ _ hd₀ hlog =>
    obtain ⟨job, hjob, hlast, heq⟩ := hw d hd₀ hstatus
    exact ⟨job, h.jobs_subset hjob, by rw [hlog]; exact hlast, heq⟩
  | created user file minioKey hfail hlog => simp [newDoc] at hstatus
  | replaced user title file minioKey d₀ hfail hd₀ hlog => simp [replaceDoc] at hstatus
  | dispatched doc rest d₀ hfail hd₀ hid hlog => simp [processingDoc] at hstatus
  | answered dto answers metaData d₀ hfail hmeta hd₀ hid hlog =>
    have hkey := hcur dto answers rfl hfail (by rw [hmeta]; exact Option.some_ne_none _) d₀ hd₀ hid
    obtain ⟨job, rfl, hjobKey⟩ := Option.map_eq_some_iff.1 hkey
    obtain ⟨hjob, hdoc⟩ := hpc job rfl
    refine ⟨job, h.jobs_subset hjob, ?_, hdoc.trans hid.symm, hjobKey⟩
    show lastAnswer (w'.log d₀.id) = some job
    rw [hlog, lastAnswer]

theorem Attributed.step (hs : Attributed s.world) (hp : AnswersPushed s)
    (hcur : AnswersCurrent s e) (h : step cfg s e = some s') : Attributed s'.world := by
  refine world_step hs h fun i env op w pc he hc => ?_
  subst he
  refine hs.advance hc.advance (hp i op hc.op_eq) fun dto answers hpc => ?_
  simpa only [AnswersCurrent, s.pc?_of_getElem? hc.op_eq, hpc] using hcur

/-- **Each result is about the present content of its row, all along a run, iff each webhook
finds the key of the job that it answers.** -/
theorem attributed_iff (cfg : Config) (es : List Event) :
    (∀ s, Visits (step cfg) (Sys.boot World.empty) es s → Attributed s.world) ↔
      Meets (step cfg) AnswersCurrent (Sys.boot World.empty) es := by
  constructor
  · intro hall
    refine meets_of_visits fun s e u hs hu hstep => ?_
    cases e with
    | request r => trivial
    | resume i env =>
      simp only [AnswersCurrent]
      split
      · rename_i dto answers hpc
        intro hfail hmeta d hd hid
        obtain ⟨op, w, pc', hop, hc⟩ := calls_of_target hstep hpc (by simp [Pc.target])
        obtain ⟨metaData, -, hrow, hlog⟩ := hc.answer hop hfail hmeta hd hid
        obtain ⟨job, -, hlast, -, hkey⟩ := hall u hu _ hrow dto.status_mem
        have hanswers : lastAnswer (u.world.log d.id) = some job := hlast
        rw [hlog, lastAnswer] at hanswers
        rw [hanswers, Option.map_some]
        exact congrArg some hkey
      · trivial
  · intro hmeets s hs
    have hkeep : ∀ s e s', (Attributed s.world ∧ AnswersPushed s) → AnswersCurrent s e →
        step cfg s e = some s' → Attributed s'.world ∧ AnswersPushed s' := by
      rintro s e s' ⟨ha, hp⟩ hcur hstep
      exact ⟨ha.step hp hcur hstep, hp.step hstep⟩
    have hboot : Attributed World.empty ∧ AnswersPushed (Sys.boot World.empty) :=
      ⟨fun d hd => absurd hd List.not_mem_nil, fun j op hop => by cases hop⟩
    exact (invariant_of_meets hkeep hboot hmeets s hs).1

/-! The webhook after a replacement. -/

def lateAnswerRun : List Event :=
  pushRun ++ [.resume 2 {}] ++ replaceSteps ++
    [.request (.updateDocStatusViaWebhook completedDto (some uploadedDoc.job)), .resume 4 {}]

theorem lateAnswer_not_attributed :
    ¬ ∀ (cfg : Config) (es : List Event) (s : Sys),
      Visits (step cfg) (Sys.boot World.empty) es s → Attributed s.world := by
  intro h
  have hrun : (run (step exampleConfig) (Sys.boot World.empty) lateAnswerRun).map
      (fun s => decide (Attributed s.world)) = some false := by decide
  obtain ⟨s, hs, hlast⟩ := Visits.of_run_map hrun
  exact of_decide_eq_false hlast (h exampleConfig lateAnswerRun s hs)

end Attributed

end ProtostarNest.Knowledge
