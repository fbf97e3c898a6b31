import ProtostarNest.Knowledge.Columns
import ProtostarNest.Knowledge.Progress

/-!
# Runs of the dispatcher

`dispatchPendingTasks` as one function: the loop over the batch with its two calls for each
document, and any number of such runs one after the other with nothing in between.

* `dispatchOne`, `dispatchPendingTasks`: the body of the loop, and a run;
* `jobs_foldl`, `rows_foldl`: what the loop pushes and which rows it marks;
* `Selects`: a run selects the documents that have fewer than ten older ones waiting;
* `Delivered`: what several runs do, whatever calls fail;
* `delivered_of_run`: every sequence of runs does it;
* `run_dispatch`: a run is a run of the steps of a request that nothing interrupts.
-/

namespace ProtostarNest.Knowledge

open Transition Queue

/-- What the calls of one run meet: its query, and the two calls for each document. -/
structure DispatchEnv where
  find : Env
  rpush : KnowledgeDoc → Env
  update : KnowledgeDoc → Env

namespace DispatchEnv

variable (env : DispatchEnv)

/-- The answer to the query, none when it fails. -/
def targets : List KnowledgeDoc :=
  if env.find.fail = none then env.find.order.take DISPATCH_TAKE else []

/-- Both calls for the document succeed. -/
def Delivers (doc : KnowledgeDoc) : Prop :=
  (env.rpush doc).fail = none ∧ (env.update doc).fail = none

instance (doc : KnowledgeDoc) : Decidable (env.Delivers doc) :=
  inferInstanceAs (Decidable (_ ∧ _))

/-- No call of the run fails. -/
def Succeeds : Prop := env.find.fail = none ∧ ∀ doc ∈ env.targets, env.Delivers doc

end DispatchEnv

/-- The body of the loop in `dispatchPendingTasks`. -/
def dispatchOne (env : DispatchEnv) (w : World) (doc : KnowledgeDoc) : World :=
  match w.rpush (env.rpush doc) doc.job with
  | .error _ => w
  | .ok w₁ =>
      match w₁.update (env.update doc) doc.id (processingDoc (env.update doc)) (fun _ => rfl)
          (.dispatched doc.id) with
      | .error _ => w₁
      | .ok w₂ => w₂

/-- A run from its query to its end. -/
def dispatchPendingTasks (w : World) (env : DispatchEnv) : Option World :=
  match env.find.fail with
  | some _ => some w
  | none =>
      if IsPending w env.find.order then
        some ((env.find.order.take DISPATCH_TAKE).foldl (dispatchOne env) w)
      else none

/-! ### The loop -/

/-- What the turn of `doc` makes of a row. -/
def markRow (env : DispatchEnv) (doc d : KnowledgeDoc) : KnowledgeDoc :=
  if d.id = doc.id ∧ env.Delivers doc then processingDoc (env.update doc) d else d

/-- What the loop makes of a row. -/
def markAll (env : DispatchEnv) (targets : List KnowledgeDoc) (d : KnowledgeDoc) : KnowledgeDoc :=
  targets.foldl (fun d doc => markRow env doc d) d

section Loop

variable {env : DispatchEnv} {w w' : World} {targets : List KnowledgeDoc} {d t : KnowledgeDoc}

theorem jobs_dispatchOne (env : DispatchEnv) (w : World) (doc : KnowledgeDoc) :
    (dispatchOne env w doc).jobs =
      w.jobs ++ if (env.rpush doc).fail = none then [doc.job] else [] := by
  unfold dispatchOne
  cases hpush : w.rpush (env.rpush doc) doc.job with
  | error e =>
    show w.jobs = _
    rw [if_neg (World.rpush_error hpush), List.append_nil]
  | ok w₁ =>
    obtain ⟨hfail, rfl⟩ := World.rpush_ok hpush
    rw [if_pos hfail]
    dsimp only
    split
    · rfl
    · rename_i hupdate
      obtain ⟨-, docs, -, rfl⟩ := World.update_ok hupdate
      rfl

theorem rows_dispatchOne (env : DispatchEnv) (w : World) (doc : KnowledgeDoc) :
    (dispatchOne env w doc).docs.rows = w.docs.rows.map (markRow env doc) := by
  have hsame : (∀ d ∈ w.docs.rows, markRow env doc d = d) →
      w.docs.rows = w.docs.rows.map (markRow env doc) := by
    intro h
    rw [List.map_congr_left h, List.map_id']
  unfold dispatchOne
  cases hpush : w.rpush (env.rpush doc) doc.job with
  | error e =>
    exact hsame fun d hd => if_neg fun h => World.rpush_error hpush h.2.1
  | ok w₁ =>
    obtain ⟨hfail, rfl⟩ := World.rpush_ok hpush
    dsimp only
    split
    · rename_i hupdate
      refine hsame fun d hd => if_neg fun h => ?_
      rcases World.update_error hupdate with hno | hno
      · exact hno h.2.2
      · exact hno (h.1 ▸ List.mem_map_of_mem hd)
    · rename_i hupdate
      obtain ⟨hfail', docs, hdocs, rfl⟩ := World.update_ok hupdate
      show docs.rows = _
      rw [(Table.update_eq_some.1 hdocs).2]
      refine List.map_congr_left fun d hd => ?_
      simp only [markRow, DispatchEnv.Delivers, hfail, hfail', and_self, and_true]

theorem jobs_foldl (env : DispatchEnv) (w : World) (targets : List KnowledgeDoc) :
    (targets.foldl (dispatchOne env) w).jobs =
      w.jobs ++ (targets.filter fun d => (env.rpush d).fail = none).map KnowledgeDoc.job := by
  induction targets generalizing w with
  | nil => rw [List.filter_nil, List.map_nil, List.append_nil]; rfl
  | cons doc targets ih =>
    rw [List.foldl_cons, ih, jobs_dispatchOne, List.append_assoc, List.filter_cons]
    by_cases hfail : (env.rpush doc).fail = none
    · simp [hfail]
    · simp [hfail]

theorem rows_foldl (env : DispatchEnv) (w : World) (targets : List KnowledgeDoc) :
    (targets.foldl (dispatchOne env) w).docs.rows = w.docs.rows.map (markAll env targets) := by
  induction targets generalizing w with
  | nil => exact (List.map_id' _).symm
  | cons doc targets ih =>
    rw [List.foldl_cons, ih, rows_dispatchOne, List.map_map]
    rfl

/-- The columns that a mark leaves alone. -/
theorem markAll_same (env : DispatchEnv) (targets : List KnowledgeDoc) (d : KnowledgeDoc) :
    (markAll env targets d).id = d.id ∧ (markAll env targets d).createdAt = d.createdAt ∧
      (markAll env targets d).status ∈ [d.status, .PROCESSING] := by
  induction targets generalizing d with
  | nil => simp [markAll]
  | cons doc targets ih =>
    obtain ⟨hid, hcreated, hstatus⟩ := ih (markRow env doc d)
    have hrow : (markRow env doc d).id = d.id ∧ (markRow env doc d).createdAt = d.createdAt ∧
        (markRow env doc d).status ∈ [d.status, .PROCESSING] := by
      unfold markRow
      split_ifs
      · simp [processingDoc]
      · simp
    refine ⟨hid.trans hrow.1, hcreated.trans hrow.2.1, ?_⟩
    show (markAll env targets (markRow env doc d)).status ∈ _
    simp only [List.mem_cons, List.not_mem_nil, or_false] at hstatus hrow ⊢
    rcases hstatus with hstatus | hstatus
    · rw [hstatus]
      exact hrow.2.2
    · exact Or.inr hstatus

/-- A row that the loop delivers nothing for. -/
theorem markAll_eq_self (h : ∀ t ∈ targets, t.id = d.id → ¬ env.Delivers t) :
    markAll env targets d = d := by
  induction targets with
  | nil => rfl
  | cons doc targets ih =>
    have hrow : markRow env doc d = d :=
      if_neg fun hd => h doc List.mem_cons_self hd.1.symm hd.2
    show markAll env targets (markRow env doc d) = d
    rw [hrow, ih fun t ht => h t (List.mem_cons_of_mem _ ht)]

/-- A row that is delivered, once. -/
theorem markAll_of_mem (hnodup : (targets.map KnowledgeDoc.id).Nodup) (ht : t ∈ targets)
    (hid : t.id = d.id) (hdel : env.Delivers t) :
    markAll env targets d = processingDoc (env.update t) d := by
  induction targets generalizing d with
  | nil => cases ht
  | cons doc targets ih =>
    obtain ⟨hnot, hnodup⟩ := List.nodup_cons.1 hnodup
    show markAll env targets (markRow env doc d) = _
    rcases List.mem_cons.1 ht with rfl | ht
    · have hrow : markRow env t d = processingDoc (env.update t) d := if_pos ⟨hid.symm, hdel⟩
      rw [hrow]
      refine markAll_eq_self fun t' ht' hid' _ => hnot ?_
      have hids : t'.id = t.id := hid'.trans hid.symm
      exact hids ▸ List.mem_map_of_mem ht'
    · have hrow : markRow env doc d = d := by
        refine if_neg fun hd => hnot ?_
        have hids : t.id = doc.id := hid.trans hd.1
        exact hids ▸ List.mem_map_of_mem ht
      rw [hrow]
      exact ih hnodup ht hid

end Loop

/-! ### One run -/

/-- The jobs that are in `v` and not in `u`, for a `v` after `u`. -/
def pushed (u v : World) : List Job := v.jobs.drop u.jobs.length

section Run

variable {env : DispatchEnv} {u v : World} {d t : KnowledgeDoc}

/-- What a run does. -/
structure DispatchRun (u : World) (env : DispatchEnv) (v : World) : Prop where
  pushed : pushed u v = (env.targets.filter fun d => (env.rpush d).fail = none).map
    KnowledgeDoc.job
  jobs : v.jobs = u.jobs ++ Knowledge.pushed u v
  rows : v.docs.rows = u.docs.rows.map (markAll env env.targets)
  pending : ∀ d ∈ env.targets, d ∈ u.docs.rows ∧ d.status = .UPLOADED
  nodup : (env.targets.map KnowledgeDoc.id).Nodup

theorem IsPending.mem_iff {rows : List KnowledgeDoc} (h : IsPending u rows) :
    d ∈ rows ↔ d ∈ u.docs.rows ∧ d.status = .UPLOADED := by
  rw [h.1.mem_iff, List.mem_filter, decide_eq_true_iff]

theorem IsPending.nodup {rows : List KnowledgeDoc} (h : IsPending u rows) :
    (rows.map KnowledgeDoc.id).Nodup :=
  ((h.1.map KnowledgeDoc.id).nodup_iff).2
    (u.docs.nodup.sublist (List.filter_sublist.map KnowledgeDoc.id))

theorem dispatchRun (h : dispatchPendingTasks u env = some v) : DispatchRun u env v := by
  have hloop : v = env.targets.foldl (dispatchOne env) u ∧
      (∀ d ∈ env.targets, d ∈ u.docs.rows ∧ d.status = .UPLOADED) ∧
      (env.targets.map KnowledgeDoc.id).Nodup := by
    unfold dispatchPendingTasks at h
    unfold DispatchEnv.targets
    split at h
    · rename_i e hfail
      rw [if_neg (by rw [hfail]; exact Option.some_ne_none e)]
      cases h
      exact ⟨rfl, fun d hd => absurd hd List.not_mem_nil, List.nodup_nil⟩
    · rename_i hfail
      rw [if_pos hfail]
      split_ifs at h with hpending
      cases h
      refine ⟨rfl, fun d hd => hpending.mem_iff.1 (List.mem_of_mem_take hd), ?_⟩
      exact hpending.nodup.sublist ((List.take_sublist _ _).map KnowledgeDoc.id)
  obtain ⟨rfl, hpending, hnodup⟩ := hloop
  have hjobs := jobs_foldl env u env.targets
  have hpushed : pushed u (env.targets.foldl (dispatchOne env) u) =
      (env.targets.filter fun d => (env.rpush d).fail = none).map KnowledgeDoc.job := by
    rw [pushed, hjobs, List.drop_left]
  exact ⟨hpushed, by rw [hpushed]; exact hjobs, rows_foldl env u env.targets, hpending, hnodup⟩

namespace DispatchRun

/-- A row after a run is the mark of a row before it. -/
theorem row (h : DispatchRun u env v) (hd : d ∈ v.docs.rows) :
    ∃ d₀ ∈ u.docs.rows, d₀.id = d.id ∧ d = markAll env env.targets d₀ := by
  rw [h.rows] at hd
  obtain ⟨d₀, hd₀, rfl⟩ := List.mem_map.1 hd
  exact ⟨d₀, hd₀, (markAll_same env _ d₀).1.symm, rfl⟩

/-- A document whose two calls succeed becomes `PROCESSING`. -/
theorem delivered (h : DispatchRun u env v) (hd : d ∈ env.targets) (hdel : env.Delivers d) :
    processingDoc (env.update d) d ∈ v.docs.rows := by
  rw [h.rows]
  exact List.mem_map.2 ⟨d, (h.pending d hd).1, markAll_of_mem h.nodup hd rfl hdel⟩

/-- A row that nothing is delivered for stays as it is. -/
theorem kept (h : DispatchRun u env v) (hd : d ∈ u.docs.rows)
    (hno : ∀ t ∈ env.targets, t.id = d.id → ¬ env.Delivers t) : d ∈ v.docs.rows := by
  rw [h.rows]
  exact List.mem_map.2 ⟨d, hd, markAll_eq_self hno⟩

/-- A document that is `UPLOADED` no more has had its job pushed in the run. -/
theorem pushed_of_left (h : DispatchRun u env v) (hd : d ∈ u.docs.rows)
    (hstatus : d.status = .UPLOADED) (hd' : t ∈ v.docs.rows) (hid : t.id = d.id)
    (hleft : t.status ≠ .UPLOADED) : d.job ∈ Knowledge.pushed u v := by
  obtain ⟨d₀, hd₀, hid₀, rfl⟩ := h.row hd'
  obtain rfl : d₀ = d := Table.eq_of_key hd₀ hd (hid₀.trans hid)
  by_cases hdel : ∃ t ∈ env.targets, t.id = d₀.id ∧ env.Delivers t
  · obtain ⟨t, ht, htid, hdel⟩ := hdel
    obtain rfl : t = d₀ := Table.eq_of_key (h.pending t ht).1 hd htid
    rw [h.pushed]
    exact List.mem_map_of_mem (List.mem_filter.2 ⟨ht, decide_eq_true hdel.1⟩)
  · have hsame : markAll env env.targets d₀ = d₀ :=
      markAll_eq_self fun t ht htid hdel' => hdel ⟨t, ht, htid, hdel'⟩
    rw [hsame] at hleft
    exact absurd hstatus hleft

/-- What is pushed is the job of a document of the batch. -/
theorem mem_pushed (h : DispatchRun u env v) {job : Job} (hjob : job ∈ Knowledge.pushed u v) :
    ∃ d ∈ env.targets, d.job = job ∧ (env.rpush d).fail = none := by
  rw [h.pushed] at hjob
  obtain ⟨d, hd, rfl⟩ := List.mem_map.1 hjob
  obtain ⟨hmem, hfail⟩ := List.mem_filter.1 hd
  exact ⟨d, hmem, rfl, of_decide_eq_true hfail⟩

end DispatchRun

/-- The document is there and does not wait any more. -/
def Taken (id : String) (w : World) : Prop :=
  ∃ d ∈ w.docs.rows, d.id = id ∧ d.status ≠ .UPLOADED

theorem Taken.run {id : String} (h : DispatchRun u env v) (hu : Taken id u) : Taken id v := by
  obtain ⟨d, hd, hid, hstatus⟩ := hu
  have hno : ∀ t ∈ env.targets, t.id = d.id → ¬ env.Delivers t := by
    intro t ht htid _
    obtain rfl : t = d := Table.eq_of_key (h.pending t ht).1 hd htid
    exact hstatus (h.pending t ht).2
  exact ⟨d, h.kept hd hno, hid, hstatus⟩

/-- No job of such a document is pushed. -/
theorem Taken.not_pushed {id : String} (h : DispatchRun u env v) (hu : Taken id u) {job : Job}
    (hjob : job ∈ pushed u v) : job.docId ≠ id := by
  obtain ⟨d, hd, hid, hstatus⟩ := hu
  obtain ⟨t, ht, rfl, -⟩ := h.mem_pushed hjob
  intro htid
  obtain rfl : t = d := Table.eq_of_key (h.pending t ht).1 hd (htid.trans hid.symm)
  exact hstatus (h.pending t ht).2

end Run

/-! ### Several runs -/

/-- A run on the way of several, with its state before and after it and the runs that follow. -/
def RunAt (w : World) (envs : List DispatchEnv) (u : World) (env : DispatchEnv) (v : World)
    (rest : List DispatchEnv) : Prop :=
  ∃ pre, envs = pre ++ env :: rest ∧ run dispatchPendingTasks w pre = some u ∧
    dispatchPendingTasks u env = some v

/-- The batch of the run has the row: it waits, and fewer than ten waiting rows are older. -/
structure DispatchEnv.Selects (env : DispatchEnv) (u : World) (d : KnowledgeDoc) : Prop where
  find : env.find.fail = none
  row : d ∈ u.docs.rows
  status : d.status = .UPLOADED
  older : (u.docs.rows.filter fun d' =>
    d'.status = .UPLOADED ∧ d'.createdAt < d.createdAt).length < 10

/-- What several runs of the dispatcher do. -/
structure Delivered (w : World) (envs : List DispatchEnv) (w' : World) : Prop where
  /-- A run adds jobs after those that are there. -/
  added : ∀ u env v rest, RunAt w envs u env v rest → v.jobs = u.jobs ++ pushed u v
  /-- A document leaves `UPLOADED` in a run that pushes its job. -/
  left : ∀ u env v rest, RunAt w envs u env v rest → ∀ d ∈ u.docs.rows, d.status = .UPLOADED →
    ∀ d' ∈ v.docs.rows, d'.id = d.id → d'.status ≠ .UPLOADED → ∃ job ∈ pushed u v, job.Carries d
  /-- It becomes `PROCESSING` in each run that selects it and in which its calls succeed. -/
  processing : ∀ u env v rest, RunAt w envs u env v rest → ∀ d, env.Selects u d →
    env.Delivers d → ∃ d' ∈ v.docs.rows, d.Processing d'
  /-- It is pushed in a later run only if its update failed in the run that pushed it before. -/
  again : ∀ u₁ env₁ v₁ rest₁, RunAt w envs u₁ env₁ v₁ rest₁ → ∀ u₂ env₂ v₂ rest₂,
    RunAt v₁ rest₁ u₂ env₂ v₂ rest₂ → ∀ job₁ ∈ pushed u₁ v₁, ∀ job₂ ∈ pushed u₂ v₂,
      job₂.docId = job₁.docId →
        ∃ d ∈ u₁.docs.rows, d.id = job₁.docId ∧ (env₁.update d).fail ≠ none
  /-- If nothing fails, the oldest documents are pushed, each once and in order, and the other
  rows stay as they are. -/
  oldest : (∀ env ∈ envs, env.Succeeds) → ∀ order : List KnowledgeDoc,
    order.Perm (w.docs.rows.filter fun d => d.status = .UPLOADED) →
    order.Pairwise (fun a b => a.createdAt ≤ b.createdAt) →
    (∃ jobs, w'.jobs = w.jobs ++ jobs ∧
      List.Forall₂ Job.Carries jobs (order.take (10 * envs.length))) ∧
    (∀ d ∈ order.take (10 * envs.length), ∃ d' ∈ w'.docs.rows, d.Processing d') ∧
    (∀ d ∈ w.docs.rows, d ∉ order.take (10 * envs.length) → d ∈ w'.docs.rows) ∧
    w'.docs.rows.map KnowledgeDoc.id = w.docs.rows.map KnowledgeDoc.id

/-- The documents have distinct times of creation. -/
def DistinctTimes (w : World) : Prop := (w.docs.rows.map KnowledgeDoc.createdAt).Nodup

section Runs

variable {env : DispatchEnv} {envs rest : List DispatchEnv} {u v w w' : World}
  {d : KnowledgeDoc} {order : List KnowledgeDoc}

theorem taken_run {id : String} (h : run dispatchPendingTasks u envs = some v)
    (hu : Taken id u) : Taken id v :=
  invariant (fun _ _ _ hs hstep => hs.run (dispatchRun hstep)) hu ⟨envs, h⟩

theorem again_of_run {u₁ v₁ u₂ v₂ : World} {env₁ env₂ : DispatchEnv}
    {rest₂ : List DispatchEnv} (h₁ : DispatchRun u₁ env₁ v₁)
    (h₂ : RunAt v₁ rest u₂ env₂ v₂ rest₂) {job₁ job₂ : Job} (hjob₁ : job₁ ∈ pushed u₁ v₁)
    (hjob₂ : job₂ ∈ pushed u₂ v₂) (hid : job₂.docId = job₁.docId) :
    ∃ d ∈ u₁.docs.rows, d.id = job₁.docId ∧ (env₁.update d).fail ≠ none := by
  obtain ⟨d, hd, rfl, hpush⟩ := h₁.mem_pushed hjob₁
  refine ⟨d, (h₁.pending d hd).1, rfl, fun hfail => ?_⟩
  have htaken : Taken d.id v₁ :=
    ⟨_, h₁.delivered hd ⟨hpush, hfail⟩, rfl, by simp [processingDoc]⟩
  obtain ⟨pre, -, hpre, hrun⟩ := h₂
  exact (taken_run hpre htaken).not_pushed (dispatchRun hrun) hjob₂ hid

theorem DistinctTimes.run (h : DispatchRun u env v) (hu : DistinctTimes u) :
    DistinctTimes v := by
  unfold DistinctTimes at hu ⊢
  rw [h.rows, List.map_map]
  have hsame : u.docs.rows.map (KnowledgeDoc.createdAt ∘ markAll env env.targets) =
      u.docs.rows.map KnowledgeDoc.createdAt :=
    List.map_congr_left fun d _ => (markAll_same env env.targets d).2.1
  rw [hsame]
  exact hu

/-- With distinct times there is one answer to the query. -/
theorem IsPending.unique {order' : List KnowledgeDoc} (hw : DistinctTimes w)
    (h : IsPending w order) (h' : IsPending w order') : order = order' := by
  refine List.Perm.eq_of_pairwise (fun a b ha hb hab hba => ?_) h.2 h'.2 (h.1.trans h'.1.symm)
  exact List.inj_on_of_nodup_map hw (h.mem_iff.1 ha).1 (h'.mem_iff.1 hb).1 (le_antisymm hab hba)

/-- What is left of a list without its beginning. -/
theorem filter_notMem_take {β : Type*} [DecidableEq β] {l : List β} (h : l.Nodup) (n : ℕ) :
    l.filter (fun d => d ∉ l.take n) = l.drop n := by
  have hsplit : (l.take n ++ l.drop n).Nodup := by
    rw [List.take_append_drop]
    exact h
  conv_lhs =>
    arg 2
    rw [← List.take_append_drop n l]
  rw [List.filter_append]
  have htake : (l.take n).filter (fun d => d ∉ l.take n) = [] :=
    List.filter_eq_nil_iff.2 fun d hd => by simpa using hd
  have hdrop : (l.drop n).filter (fun d => d ∉ l.take n) = l.drop n := by
    refine List.filter_eq_self.2 fun d hd => ?_
    simpa using fun hd' => (List.nodup_append.1 hsplit).2.2 d hd' d hd rfl
  rw [htake, hdrop, List.nil_append]

/-- The waiting rows after a run without failures are those that it did not select. -/
theorem filter_marked (h : DispatchRun u env v) (hsucc : ∀ t ∈ env.targets, env.Delivers t) :
    v.docs.rows.filter (fun d => d.status = .UPLOADED) =
      (u.docs.rows.filter fun d => d.status = .UPLOADED).filter (fun d => d ∉ env.targets) := by
  have hmark : ∀ d ∈ u.docs.rows, markAll env env.targets d =
      if d ∈ env.targets then processingDoc (env.update d) d else d := by
    intro d hd
    split_ifs with ht
    · exact markAll_of_mem h.nodup ht rfl (hsucc d ht)
    · refine markAll_eq_self fun t htmem htid _ => ht ?_
      obtain rfl : t = d := Table.eq_of_key (h.pending t htmem).1 hd htid
      exact htmem
  rw [h.rows]
  generalize u.docs.rows = rows at hmark
  induction rows with
  | nil => rfl
  | cons d rows ih =>
    rw [List.map_cons, List.filter_cons, List.filter_cons, ih fun d' hd' =>
      hmark d' (List.mem_cons_of_mem _ hd'), hmark d List.mem_cons_self]
    by_cases ht : d ∈ env.targets
    · have hstatus := (h.pending d ht).2
      simp [ht, hstatus, processingDoc]
    · by_cases hstatus : d.status = .UPLOADED
      · simp [ht, hstatus]
      · simp [ht, hstatus]

/-- The same for the answer to the next query. -/
theorem IsPending.next (horder : IsPending u order) (h : DispatchRun u env v)
    (htargets : env.targets = order.take DISPATCH_TAKE)
    (hsucc : ∀ t ∈ env.targets, env.Delivers t) : IsPending v (order.drop DISPATCH_TAKE) := by
  refine ⟨?_, horder.2.sublist (List.drop_sublist _ _)⟩
  rw [filter_marked h hsucc, ← filter_notMem_take horder.nodup.of_map DISPATCH_TAKE, htargets]
  exact horder.1.filter _

theorem targets_of_succeeds (h : dispatchPendingTasks u env = some v) (hu : DistinctTimes u)
    (hsucc : env.Succeeds) (horder : IsPending u order) :
    env.targets = order.take DISPATCH_TAKE := by
  unfold dispatchPendingTasks at h
  rw [hsucc.1] at h
  dsimp only at h
  split_ifs at h with hpending
  rw [DispatchEnv.targets, if_pos hsucc.1, hpending.unique hu horder]

/-- Runs without failures take the waiting documents from the oldest on, ten by ten. -/
theorem oldest_of_run (hw : DistinctTimes w) (hrun : run dispatchPendingTasks w envs = some w')
    (hsucc : ∀ env ∈ envs, env.Succeeds) (horder : IsPending w order) :
    w'.jobs = w.jobs ++ (order.take (DISPATCH_TAKE * envs.length)).map KnowledgeDoc.job ∧
      (∀ d ∈ order.take (DISPATCH_TAKE * envs.length), ∃ env,
        processingDoc env d ∈ w'.docs.rows) ∧
      (∀ d ∈ w.docs.rows, d ∉ order.take (DISPATCH_TAKE * envs.length) → d ∈ w'.docs.rows) ∧
      w'.docs.rows.map KnowledgeDoc.id = w.docs.rows.map KnowledgeDoc.id := by
  induction envs generalizing w order with
  | nil =>
    cases hrun
    exact ⟨by simp, fun d hd => absurd hd (by simp), fun d hd _ => hd, rfl⟩
  | cons env envs ih =>
    obtain ⟨v, hstep, hrun⟩ := (run_cons_eq_some dispatchPendingTasks).1 hrun
    have h := dispatchRun hstep
    have hsuccEnv := hsucc env List.mem_cons_self
    have htargets := targets_of_succeeds hstep hw hsuccEnv horder
    have hnext := horder.next h htargets hsuccEnv.2
    obtain ⟨hjobs, hmarked, hkept, hids⟩ :=
      ih (hw.run h) hrun (fun env henv => hsucc env (List.mem_cons_of_mem _ henv)) hnext
    have hsplit : order.take (DISPATCH_TAKE * (env :: envs).length) =
        order.take DISPATCH_TAKE ++
          (order.drop DISPATCH_TAKE).take (DISPATCH_TAKE * envs.length) := by
      rw [List.length_cons, Nat.mul_succ, Nat.add_comm, List.take_add]
    have hpushed : pushed w v = (order.take DISPATCH_TAKE).map KnowledgeDoc.job := by
      rw [h.pushed, htargets, List.filter_eq_self.2]
      intro d hd
      exact decide_eq_true (hsuccEnv.2 d (htargets ▸ hd)).1
    -- what a later run takes waits, and a marked row does not
    have hstays : ∀ d ∈ v.docs.rows, d.status ≠ .UPLOADED → d ∈ w'.docs.rows :=
      fun d hd hstatus => hkept d hd fun htake =>
        hstatus (hnext.mem_iff.1 (List.mem_of_mem_take htake)).2
    rw [hsplit]
    refine ⟨?_, fun d hd => ?_, fun d hd hno => ?_, ?_⟩
    · rw [hjobs, h.jobs, hpushed, List.map_append, List.append_assoc]
    · rcases List.mem_append.1 hd with hd | hd
      · have hmem : d ∈ env.targets := htargets ▸ hd
        exact ⟨env.update d, hstays _ (h.delivered hmem (hsuccEnv.2 d hmem))
          (by simp [processingDoc])⟩
      · exact hmarked d hd
    · rw [List.mem_append, not_or] at hno
      refine hkept d (h.kept hd fun t ht htid _ => hno.1 ?_) hno.2
      obtain rfl : t = d := Table.eq_of_key (h.pending t ht).1 hd htid
      exact htargets ▸ ht
    · rw [hids, h.rows, List.map_map]
      exact List.map_congr_left fun d _ => (markAll_same env env.targets d).1

/-- A document with fewer than ten older ones is among the first ten of the answer. -/
theorem mem_targets (hu : DistinctTimes u) (h : dispatchPendingTasks u env = some v)
    (hd : env.Selects u d) : d ∈ env.targets := by
  unfold dispatchPendingTasks at h
  rw [hd.find] at h
  dsimp only at h
  split_ifs at h with hpending
  rw [DispatchEnv.targets, if_pos hd.find]
  have hmem := hpending.mem_iff.2 ⟨hd.row, hd.status⟩
  have hsorted := hpending.2
  rw [← List.take_append_drop DISPATCH_TAKE env.find.order] at hmem hsorted
  rcases List.mem_append.1 hmem with htake | hdrop
  · exact htake
  exfalso
  -- otherwise all of the first ten are older
  have hbefore : ∀ d' ∈ env.find.order.take DISPATCH_TAKE, d'.createdAt < d.createdAt := by
    intro d' hd'
    have hle := (List.pairwise_append.1 hsorted).2.2 d' hd' d hdrop
    refine lt_of_le_of_ne hle fun heq => ?_
    have hrow := (hpending.mem_iff.1 (List.mem_of_mem_take hd')).1
    obtain rfl := List.inj_on_of_nodup_map hu hrow hd.row heq
    have hnodup := hpending.nodup.of_map
    rw [← List.take_append_drop DISPATCH_TAKE env.find.order] at hnodup
    exact (List.nodup_append.1 hnodup).2.2 d' hd' d' hdrop rfl
  have hlen : (env.find.order.take DISPATCH_TAKE).length = 10 := by
    have hpos := List.length_pos_of_mem hdrop
    rw [List.length_drop] at hpos
    rw [List.length_take, Nat.min_eq_left (by omega)]
    rfl
  have hall : (env.find.order.take DISPATCH_TAKE).filter (fun d' => d'.createdAt < d.createdAt) =
      env.find.order.take DISPATCH_TAKE :=
    List.filter_eq_self.2 fun d' hd' => decide_eq_true (hbefore d' hd')
  have hsub := (List.take_sublist DISPATCH_TAKE env.find.order).filter
    fun d' => decide (d'.createdAt < d.createdAt)
  have hperm := hpending.1.filter fun d' => decide (d'.createdAt < d.createdAt)
  have hle := hsub.length_le.trans hperm.length_eq.le
  rw [hall, hlen, List.filter_filter] at hle
  have holder := hd.older
  simp only [Bool.decide_and, Bool.and_comm] at holder hle
  omega

theorem RunAt.times {rest : List DispatchEnv} (h : RunAt w envs u env v rest)
    (hw : DistinctTimes w) : DistinctTimes u := by
  obtain ⟨pre, -, hpre, -⟩ := h
  exact invariant (fun _ _ _ hs hstep => hs.run (dispatchRun hstep)) hw ⟨pre, hpre⟩

/-- **Any number of runs of the dispatcher, one after the other, deliver at least once and isolate
failures.** -/
theorem delivered_of_run (w w' : World) (envs : List DispatchEnv) (hw : DistinctTimes w)
    (hrun : run dispatchPendingTasks w envs = some w') : Delivered w envs w' where
  added := by
    rintro u env v rest ⟨pre, -, -, hstep⟩
    exact (dispatchRun hstep).jobs
  left := by
    rintro u env v rest ⟨pre, -, -, hstep⟩ d hd hstatus d' hd' hid hleft
    exact ⟨d.job, (dispatchRun hstep).pushed_of_left hd hstatus hd' hid hleft, d.job_carries⟩
  processing := by
    rintro u env v rest h d hd hdel
    have hu := h.times hw
    obtain ⟨pre, -, -, hstep⟩ := h
    exact ⟨_, (dispatchRun hstep).delivered (mem_targets hu hstep hd) hdel,
      processingDoc_processing _ d⟩
  again := by
    rintro u₁ env₁ v₁ rest₁ ⟨pre, -, -, hstep⟩ u₂ env₂ v₂ rest₂ hlater job₁ hjob₁ job₂ hjob₂ hid
    exact again_of_run (dispatchRun hstep) hlater hjob₁ hjob₂ hid
  oldest := by
    intro hsucc order hperm hsorted
    obtain ⟨hjobs, hmarked, hkept, hids⟩ := oldest_of_run hw hrun hsucc ⟨hperm, hsorted⟩
    refine ⟨⟨_, hjobs, forall₂_carries _⟩, fun d hd => ?_, hkept, hids⟩
    obtain ⟨env, hrow⟩ := hmarked d hd
    exact ⟨_, hrow, processingDoc_processing env d⟩

end Runs

/-! Two documents, the update of the first of which fails in the first run. -/

def secondDoc : KnowledgeDoc := { uploadedDoc with id := "d1", minioKey := "k1", createdAt := 1 }

def twoDocs : World :=
  { World.empty with docs := ⟨[uploadedDoc, secondDoc], by decide⟩ }

def failingUpdate : DispatchEnv where
  find := { order := [uploadedDoc, secondDoc] }
  rpush _ := {}
  update d := if d.id = "d0" then { fail := some "timeout" } else {}

def retry : DispatchEnv where
  find := { order := [uploadedDoc] }
  rpush _ := {}
  update _ := {}

theorem delivered_retry : ∃ w,
    run dispatchPendingTasks twoDocs [failingUpdate, retry] = some w ∧
      w.jobs.map Job.docId = ["d0", "d1", "d0"] ∧
      w.docs.rows.map KnowledgeDoc.status = [.PROCESSING, .PROCESSING] ∧
      Delivered twoDocs [failingUpdate, retry] w := by
  have hrun : (run dispatchPendingTasks twoDocs [failingUpdate, retry]).map
      (fun w => (w.jobs.map Job.docId, w.docs.rows.map KnowledgeDoc.status)) =
        some (["d0", "d1", "d0"], [.PROCESSING, .PROCESSING]) := by decide
  obtain ⟨w, hw, hlast⟩ := Option.map_eq_some_iff.1 hrun
  obtain ⟨hjobs, hstatus⟩ := Prod.mk.inj hlast
  have htimes : DistinctTimes twoDocs := by
    unfold DistinctTimes
    decide
  exact ⟨w, hw, hjobs, hstatus,
    delivered_of_run twoDocs w [failingUpdate, retry] htimes hw⟩

/-! ### The steps of a run -/

/-- The steps of a dispatcher from the head of its loop. -/
def dispatchSteps (i : ℕ) (env : DispatchEnv) : List KnowledgeDoc → List Event
  | [] => []
  | doc :: rest =>
      .resume i (env.rpush doc) ::
        if (env.rpush doc).fail = none then .resume i (env.update doc) :: dispatchSteps i env rest
        else dispatchSteps i env rest

/-- The steps of a dispatcher from its call to its end, if nothing comes in between. -/
def dispatchEvents (i : ℕ) (env : DispatchEnv) : List Event :=
  .request .dispatchPendingTasks :: .resume i env.find :: dispatchSteps i env env.targets

section Bridge

variable {cfg : Config} {s : Sys} {env : DispatchEnv} {i : ℕ} {targets : List KnowledgeDoc}

theorem step_called {e : Env} {op : Op} {w : World} {pc : Pc} (hwait : i ∉ s.queue.queue)
    (hop : s.ops[i]? = some op) (hcall : op.pc.Calling)
    (hadv : advance cfg s.world e op.pc = some (w, pc)) :
    step cfg s (.resume i e) = some (s.called i op w pc) :=
  step_resume_iff.2 ⟨hwait, op, hop, .called w pc hcall hadv⟩

theorem run_dispatchSteps (hwait : i ∉ s.queue.queue)
    (hop : s.ops[i]? = some ⟨false, .dispatchNext targets⟩) :
    run (step cfg) s (dispatchSteps i env targets) =
      some ⟨targets.foldl (dispatchOne env) s.world, s.queue,
        s.ops.set i ⟨false, .done (.ok .success)⟩⟩ := by
  obtain ⟨hi, hget⟩ := List.getElem?_eq_some_iff.1 hop
  induction targets generalizing s with
  | nil =>
    have hset : s.ops.set i ⟨false, .done (.ok .success)⟩ = s.ops := by
      rw [← show s.ops[i] = ⟨false, .done (.ok .success)⟩ from hget, List.set_getElem_self]
    rw [hset]
    rfl
  | cons doc rest ih =>
    have hafter : ∀ (w : World) (t : Sys), t.world = w → t.queue = s.queue →
        t.ops = s.ops.set i ⟨false, .dispatchNext rest⟩ →
        run (step cfg) t (dispatchSteps i env rest) =
          some ⟨rest.foldl (dispatchOne env) w, s.queue,
            s.ops.set i ⟨false, .done (.ok .success)⟩⟩ := by
      intro w t hworld hqueue hops
      have hlen : i < t.ops.length := by
        rw [hops, List.length_set]
        exact hi
      have hself : t.ops[i]? = some ⟨false, .dispatchNext rest⟩ := by
        rw [hops, List.getElem?_set_self hi]
      rw [ih (by rw [hqueue]; exact hwait) hself hlen (List.getElem?_eq_some_iff.1 hself).2, hworld,
        hqueue, hops, List.set_set]
    rw [List.foldl_cons, dispatchSteps]
    cases hpush : s.world.rpush (env.rpush doc) doc.job with
    | error e =>
      have hone : dispatchOne env s.world doc = s.world := by
        rw [dispatchOne, hpush]
      have hadv : advance cfg s.world (env.rpush doc) (.dispatchPush doc rest) =
          some (s.world, .dispatchNext rest) := by
        simp only [advance, hpush]
      rw [if_neg (World.rpush_error hpush), hone,
        run_cons_some (step cfg) _ (step_called hwait hop trivial hadv)]
      exact hafter s.world _ rfl rfl rfl
    | ok w₁ =>
      have hadv : advance cfg s.world (env.rpush doc) (.dispatchPush doc rest) =
          some (w₁, .dispatchUpdate doc rest) := by
        simp only [advance, hpush]
      rw [if_pos (World.rpush_ok hpush).1,
        run_cons_some (step cfg) _ (step_called hwait hop trivial hadv)]
      have hself : (s.ops.set i ⟨false, .dispatchUpdate doc rest⟩)[i]? =
          some ⟨false, .dispatchUpdate doc rest⟩ := List.getElem?_set_self hi
      have hupdated : advance cfg w₁ (env.update doc) (.dispatchUpdate doc rest) =
          some (dispatchOne env s.world doc, .dispatchNext rest) := by
        cases hupdate : w₁.update (env.update doc) doc.id (processingDoc (env.update doc))
          (fun _ => rfl) (.dispatched doc.id) <;> simp only [advance, dispatchOne, hpush, hupdate]
      rw [run_cons_some (step cfg) _ (step_called
        (s := s.called i ⟨false, .dispatchNext (doc :: rest)⟩ w₁ (.dispatchUpdate doc rest))
        hwait hself trivial hupdated)]
      exact hafter _ _ rfl rfl (List.set_set ..)

/-- **A run of the dispatcher is a run of the server in which nothing interrupts it.** -/
theorem run_dispatch {w₀ v : World} (h : Reachable (step cfg) (Sys.boot w₀) s)
    (hrun : dispatchPendingTasks s.world env = some v) :
    ∃ result, run (step cfg) s (dispatchEvents s.ops.length env) =
      some ⟨v, s.queue, s.ops ++ [⟨false, .done result⟩]⟩ := by
  have hspawn : step cfg s (.request .dispatchPendingTasks) = some (s.spawn .dispatchFind) := rfl
  have hop : (s.spawn .dispatchFind).ops[s.ops.length]? = some ⟨false, .dispatchFind⟩ :=
    List.getElem?_concat_length
  have hwait : s.ops.length ∉ (s.spawn .dispatchFind).queue.queue :=
    not_waiting (h.tail hspawn) hop rfl
  have hset : ∀ op op' : Op, (s.ops ++ [op]).set s.ops.length op' = s.ops ++ [op'] := by
    intro op op'
    rw [List.set_append_right _ _ le_rfl, Nat.sub_self]
    rfl
  rw [dispatchEvents, run_cons_some (step cfg) _ hspawn]
  unfold dispatchPendingTasks at hrun
  unfold DispatchEnv.targets
  split at hrun
  · rename_i e hfail
    cases hrun
    have hadv : advance cfg (s.spawn .dispatchFind).world env.find .dispatchFind =
        some (s.world, .throw (.Error e)) := by
      simp only [advance, hfail]
      rfl
    rw [run_cons_some (step cfg) _ (step_called hwait hop trivial hadv),
      if_neg (by rw [hfail]; exact Option.some_ne_none e)]
    refine ⟨.error (.Error e), ?_⟩
    show some (Sys.called _ _ _ _ _) = _
    simp only [Sys.called, Sys.setPc, Sys.spawn, hset]
    rfl
  · rename_i hfail
    split_ifs at hrun with hpending
    cases hrun
    have hadv : advance cfg (s.spawn .dispatchFind).world env.find .dispatchFind =
        some (s.world, .dispatchNext (env.find.order.take DISPATCH_TAKE)) := by
      simp only [advance, hfail]
      exact if_pos hpending
    rw [run_cons_some (step cfg) _ (step_called hwait hop trivial hadv), if_pos hfail]
    have hself : ((s.spawn .dispatchFind).called s.ops.length ⟨false, .dispatchFind⟩ s.world
        (.dispatchNext (env.find.order.take DISPATCH_TAKE))).ops[s.ops.length]? =
          some ⟨false, .dispatchNext (env.find.order.take DISPATCH_TAKE)⟩ :=
      List.getElem?_set_self (by simp [Sys.spawn])
    refine ⟨.ok .success, (run_dispatchSteps (s := (s.spawn .dispatchFind).called s.ops.length
      ⟨false, .dispatchFind⟩ s.world _) hwait hself).trans ?_⟩
    simp only [Sys.called, Sys.setPc, Sys.spawn, hset]

end Bridge

end ProtostarNest.Knowledge
