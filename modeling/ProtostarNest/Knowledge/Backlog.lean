import ProtostarNest.Knowledge.Dispatcher

/-!
# Documents that cannot be dispatched

A document whose calls fail stays `UPLOADED`, so the next run of the dispatcher selects it again,
and a batch has ten places.

* `Turn`, `turn`: a run of the dispatcher, or an upload between two runs;
* `IsPending.after`: the waiting documents after a run;
* `progress_of_run`: with `f` documents that fail, each run serves the ten minus `f` oldest others;
* `blocked_of_run`: ten documents that fail and are older than the others block all of them.
-/

namespace ProtostarNest.Knowledge

open Transition Queue

inductive Turn
  | run (env : DispatchEnv)
  | upload (doc : KnowledgeDoc)

/-- An upload is the newest document. -/
def turn (w : World) : Turn → Option World
  | .run env => dispatchPendingTasks w env
  | .upload doc =>
      if doc.status = .UPLOADED ∧ ∀ d ∈ w.docs.rows, d.createdAt < doc.createdAt then
        (w.create {} doc).toOption
      else none

def runs (turns : List Turn) : ℕ :=
  turns.countP fun
    | .run _ => true
    | .upload _ => false

def uploads (turns : List Turn) : List KnowledgeDoc :=
  turns.filterMap fun
    | .run _ => none
    | .upload doc => some doc

/-- The query of the run succeeds, and so do the calls for all documents but the bad ones. -/
def DispatchEnv.Serves (bad : String → Bool) (env : DispatchEnv) : Prop :=
  env.find.fail = none ∧ ∀ doc ∈ env.targets, bad doc.id = false → env.Delivers doc

/-- One of the two calls for each bad document fails. -/
def DispatchEnv.Fails (bad : String → Bool) (env : DispatchEnv) : Prop :=
  ∀ doc ∈ env.targets, bad doc.id = true → ¬ env.Delivers doc

section Turns

variable {env : DispatchEnv} {w w' u v : World} {doc : KnowledgeDoc} {order : List KnowledgeDoc}

theorem turn_upload (h : turn w (.upload doc) = some w') :
    doc.status = .UPLOADED ∧ (∀ d ∈ w.docs.rows, d.createdAt < doc.createdAt) ∧
      w'.docs.rows = w.docs.rows ++ [doc] ∧ w'.jobs = w.jobs := by
  simp only [turn] at h
  split_ifs at h with hnew
  cases hcreate : w.create {} doc with
  | error e => rw [hcreate] at h; cases h
  | ok w₁ =>
    rw [hcreate] at h
    obtain rfl := Option.some.inj h
    obtain ⟨-, docs, hdocs, rfl⟩ := World.create_ok hcreate
    exact ⟨hnew.1, hnew.2, (Table.create_eq_some.1 hdocs).2, rfl⟩

theorem DistinctTimes.turn {t : Turn} (hw : DistinctTimes w) (h : turn w t = some w') :
    DistinctTimes w' := by
  cases t with
  | run env => exact hw.run (dispatchRun h)
  | upload doc =>
    obtain ⟨-, hnew, hrows, -⟩ := turn_upload h
    unfold DistinctTimes at hw ⊢
    rw [hrows, List.map_append]
    refine List.nodup_append.2 ⟨hw, List.nodup_singleton _, ?_⟩
    rintro a ha b hb rfl
    obtain ⟨d, hd, rfl⟩ := List.mem_map.1 ha
    exact (hnew d hd).ne (List.mem_singleton.1 hb)

theorem IsPending.upload (horder : IsPending w order)
    (h : Knowledge.turn w (.upload doc) = some w') : IsPending w' (order ++ [doc]) := by
  obtain ⟨hstatus, hnew, hrows, -⟩ := turn_upload h
  refine ⟨?_, List.pairwise_append.2 ⟨horder.2, List.pairwise_singleton _ _, ?_⟩⟩
  · rw [hrows, List.filter_append, List.filter_singleton, decide_eq_true hstatus]
    exact horder.1.append_right _
  · intro d hd d' hd'
    rw [List.mem_singleton.1 hd']
    exact (hnew d (horder.mem_iff.1 hd).1).le

/-- The batch of a run whose query succeeds. -/
theorem targets_of_find (h : dispatchPendingTasks u env = some v) (hu : DistinctTimes u)
    (hfind : env.find.fail = none) (horder : IsPending u order) :
    env.targets = order.take DISPATCH_TAKE := by
  unfold dispatchPendingTasks at h
  rw [hfind] at h
  dsimp only at h
  split_ifs at h with hpending
  rw [DispatchEnv.targets, if_pos hfind, hpending.unique hu horder]

/-- A batch is the beginning of the waiting documents, or empty. -/
theorem targets_subset (h : dispatchPendingTasks u env = some v) (hu : DistinctTimes u)
    (horder : IsPending u order) : env.targets ⊆ order.take DISPATCH_TAKE := by
  by_cases hfind : env.find.fail = none
  · rw [targets_of_find h hu hfind horder]
    exact List.Subset.refl _
  · rw [DispatchEnv.targets, if_neg hfind]
    exact List.nil_subset _

/-- The document stays in the backlog. -/
def DispatchEnv.keeps (env : DispatchEnv) (d : KnowledgeDoc) : Bool :=
  ¬ (d ∈ env.targets ∧ env.Delivers d)

/-- The waiting documents after a run. -/
theorem IsPending.after (horder : IsPending u order) (h : DispatchRun u env v) :
    IsPending v (order.filter env.keeps) := by
  refine ⟨?_, horder.2.filter _⟩
  have hmark : ∀ d ∈ u.docs.rows, markAll env env.targets d =
      if d ∈ env.targets ∧ env.Delivers d then processingDoc (env.update d) d else d := by
    intro d hd
    split_ifs with ht
    · exact markAll_of_mem h.nodup ht.1 rfl ht.2
    · refine markAll_eq_self fun t htmem htid hdel => ht ?_
      obtain rfl : t = d := Table.eq_of_key (h.pending t htmem).1 hd htid
      exact ⟨htmem, hdel⟩
  have hrows : v.docs.rows.filter (fun d => d.status = .UPLOADED) =
      (u.docs.rows.filter fun d => d.status = .UPLOADED).filter env.keeps := by
    rw [h.rows]
    generalize u.docs.rows = rows at hmark
    induction rows with
    | nil => rfl
    | cons d rows ih =>
      rw [List.map_cons, List.filter_cons, List.filter_cons, ih fun d' hd' =>
        hmark d' (List.mem_cons_of_mem _ hd'), hmark d List.mem_cons_self]
      by_cases ht : d ∈ env.targets ∧ env.Delivers d
      · have hstatus := (h.pending d ht.1).2
        simp [ht, hstatus, processingDoc, DispatchEnv.keeps]
      · by_cases hstatus : d.status = .UPLOADED
        · have hkeeps : env.keeps d = true := decide_eq_true ht
          rw [if_neg ht, if_pos (decide_eq_true hstatus), if_pos (decide_eq_true hstatus),
            List.filter_cons, if_pos hkeeps]
        · simp only [if_neg ht, hstatus, decide_false, Bool.false_eq_true, if_false]
  rw [hrows]
  exact horder.1.filter _

/-- A row that does not wait stays as it is. -/
theorem kept_turns {d : KnowledgeDoc} {turns : List Turn} (h : run turn u turns = some v)
    (hd : d ∈ u.docs.rows) (hstatus : d.status ≠ .UPLOADED) : d ∈ v.docs.rows := by
  induction turns generalizing u with
  | nil => cases h; exact hd
  | cons t turns ih =>
    obtain ⟨u₁, hu₁, h⟩ := (run_cons_eq_some _).1 h
    refine ih h ?_
    cases t with
    | run env =>
      have hrun := dispatchRun hu₁
      refine hrun.kept hd fun t ht hid _ => ?_
      obtain rfl : t = d := Table.eq_of_key (hrun.pending t ht).1 hd hid
      exact hstatus (hrun.pending t ht).2
    | upload doc => exact (turn_upload hu₁).2.2.1 ▸ List.mem_append_left _ hd

theorem jobs_turn {t : Turn} (h : turn u t = some v) : u.jobs <+: v.jobs := by
  cases t with
  | run env =>
    rw [(dispatchRun h).jobs]
    exact List.prefix_append _ _
  | upload doc => exact ⟨[], (List.append_nil _).trans (turn_upload h).2.2.2.symm⟩

theorem jobs_turns {turns : List Turn} (h : run turn u turns = some v) : u.jobs <+: v.jobs := by
  induction turns generalizing u with
  | nil => cases h; exact List.prefix_rfl
  | cons t turns ih =>
    obtain ⟨u₁, hu₁, h⟩ := (run_cons_eq_some _).1 h
    exact (jobs_turn hu₁).trans (ih h)

theorem pushed_append (huv : u.jobs <+: v.jobs) (hvw : v.jobs <+: w.jobs) :
    pushed u w = pushed u v ++ pushed v w := by
  obtain ⟨a, ha⟩ := huv
  obtain ⟨b, hb⟩ := hvw
  rw [pushed, pushed, pushed, ← hb, ← ha, List.drop_left, List.drop_left, List.append_assoc,
    List.drop_left]

end Turns

/-! ### Progress -/

section Progress

variable {env : DispatchEnv} {w w' u v : World} {bad : String → Bool} {old new : List KnowledgeDoc}

/-- A run serves the oldest waiting documents that are not bad, and leaves the others of these for
the next run. -/
theorem serves_run (h : dispatchPendingTasks u env = some v) (hu : DistinctTimes u)
    (hserves : env.Serves bad) (horder : IsPending u (old ++ new)) :
    (∀ d ∈ (old.take DISPATCH_TAKE).filter (fun d => !bad d.id),
      (∃ d' ∈ v.docs.rows, d.Processing d') ∧ d.job ∈ pushed u v) ∧
      (old.filter env.keeps).filter (fun d => !bad d.id) =
        (old.drop DISPATCH_TAKE).filter fun d => !bad d.id := by
  have htargets := targets_of_find h hu hserves.1 horder
  have hrun := dispatchRun h
  have hnodup : (old ++ new).Nodup := horder.nodup.of_map
  have hmem : ∀ d ∈ old.take DISPATCH_TAKE, d ∈ env.targets := by
    intro d hd
    rw [htargets, List.take_append]
    exact List.mem_append_left _ hd
  refine ⟨fun d hd => ?_, ?_⟩
  · obtain ⟨htake, hgood⟩ := List.mem_filter.1 hd
    have hdel := hserves.2 d (hmem d htake) (by simpa using hgood)
    refine ⟨⟨_, hrun.delivered (hmem d htake) hdel, processingDoc_processing _ d⟩, ?_⟩
    rw [hrun.pushed]
    exact List.mem_map_of_mem (List.mem_filter.2 ⟨hmem d htake, decide_eq_true hdel.1⟩)
  · conv_lhs => rw [← List.take_append_drop DISPATCH_TAKE old]
    rw [List.filter_filter, List.filter_append]
    have htake : (old.take DISPATCH_TAKE).filter (fun d => !bad d.id && env.keeps d) = [] := by
      refine List.filter_eq_nil_iff.2 fun d hd => ?_
      rw [Bool.and_eq_true, Bool.not_eq_true']
      rintro ⟨hgood, hkeeps⟩
      exact of_decide_eq_true hkeeps ⟨hmem d hd, hserves.2 d (hmem d hd) hgood⟩
    -- the batch has no place for what comes after the ten oldest
    have hdrop : (old.drop DISPATCH_TAKE).filter (fun d => !bad d.id && env.keeps d) =
        (old.drop DISPATCH_TAKE).filter fun d => !bad d.id := by
      refine List.filter_congr fun d hd => ?_
      have hlen : DISPATCH_TAKE < old.length := by
        have hpos := List.length_pos_of_mem hd
        rw [List.length_drop] at hpos
        omega
      have hbatch : env.targets = old.take DISPATCH_TAKE := by
        rw [htargets, List.take_append, Nat.sub_eq_zero_of_le hlen.le, List.take_zero,
          List.append_nil]
      have hkeeps : env.keeps d = true := by
        refine decide_eq_true fun hd' => ?_
        have hold := (List.nodup_append.1 hnodup).1
        rw [← List.take_append_drop DISPATCH_TAKE old] at hold
        exact (List.nodup_append.1 hold).2.2 d (hbatch ▸ hd'.1) d hd rfl
      rw [hkeeps, Bool.and_true]
    rw [htake, hdrop, List.nil_append]

/-- How many documents that are not bad are among the ten oldest. -/
theorem length_served (old : List KnowledgeDoc) (bad : String → Bool) :
    old.length ≤ DISPATCH_TAKE ∨ DISPATCH_TAKE - old.countP (fun d => bad d.id) ≤
      ((old.take DISPATCH_TAKE).filter fun d => !bad d.id).length := by
  by_cases hlen : old.length ≤ DISPATCH_TAKE
  · exact Or.inl hlen
  · right
    have hle : (old.take DISPATCH_TAKE).countP (fun d => bad d.id) ≤
        old.countP fun d => bad d.id := (List.take_sublist _ _).countP_le
    have hsum := List.length_eq_countP_add_countP (l := old.take DISPATCH_TAKE) fun d => bad d.id
    have htake : (old.take DISPATCH_TAKE).length = DISPATCH_TAKE := by
      rw [List.length_take]
      omega
    have hgood : ((old.take DISPATCH_TAKE).filter fun d => !bad d.id).length =
        (old.take DISPATCH_TAKE).countP fun d => ¬ bad d.id = true := by
      rw [List.countP_eq_length_filter]
      simp
    omega

theorem progress_of_pending {turns : List Turn} (hw : DistinctTimes w)
    (horder : IsPending w (old ++ new)) (hserves : ∀ env, Turn.run env ∈ turns → env.Serves bad)
    (hrun : run turn w turns = some w') {f : ℕ} (hf : old.countP (fun d => bad d.id) ≤ f) :
    ∀ d ∈ (old.filter fun d => !bad d.id).take (runs turns * (DISPATCH_TAKE - f)),
      (∃ d' ∈ w'.docs.rows, d.Processing d') ∧ d.job ∈ pushed w w' := by
  induction turns generalizing w old new with
  | nil => intro d hd; simp [runs] at hd
  | cons t turns ih =>
    obtain ⟨v, hv, hrest⟩ := (run_cons_eq_some turn).1 hrun
    have hlater := fun env henv => hserves env (List.mem_cons_of_mem t henv)
    rw [pushed_append (jobs_turn hv) (jobs_turns hrest)]
    cases t with
    | upload doc =>
      have hup : IsPending v (old ++ (new ++ [doc])) := by
        rw [← List.append_assoc]
        exact horder.upload hv
      exact fun d hd => (ih (hw.turn hv) hup hlater hrest hf d hd).imp_right
        (List.mem_append_right _)
    | run env =>
      obtain ⟨hserved, hleft⟩ := serves_run hv hw (hserves env List.mem_cons_self) horder
      have hnext : IsPending v (old.filter env.keeps ++ new.filter env.keeps) := by
        rw [← List.filter_append]
        exact horder.after (dispatchRun hv)
      have hf' : (old.filter env.keeps).countP (fun d => bad d.id) ≤ f :=
        List.filter_sublist.countP_le.trans hf
      have hothers := ih (hw.turn hv) hnext hlater hrest hf'
      rw [hleft] at hothers
      intro d hd
      have hruns : runs (.run env :: turns) = runs turns + 1 := List.countP_cons_of_pos rfl
      rw [hruns, ← List.take_append_drop DISPATCH_TAKE old, List.filter_append,
        List.take_append] at hd
      rcases List.mem_append.1 hd with hd | hd
      · obtain ⟨⟨d', hd', hmarked⟩, hjob⟩ := hserved d (List.mem_of_mem_take hd)
        have hstatus : d'.status ≠ .UPLOADED := by
          rw [hmarked.status]
          decide
        exact ⟨⟨d', kept_turns hrest hd' hstatus, hmarked⟩, List.mem_append_left _ hjob⟩
      · refine (hothers d (List.take_subset_take_left _ ?_ hd)).imp_right (List.mem_append_right _)
        rcases length_served old bad with hlen | hlen
        · rw [List.drop_eq_nil_of_le hlen] at hd
          simp at hd
        · rw [Nat.succ_mul]
          omega

end Progress

/-- **Documents that fail slow the dispatcher down by their number**: if `f` of the waiting
documents may fail and the calls for the others succeed, `k` runs push and mark the
`k * (10 - f)` oldest of these, whatever is uploaded in between. -/
theorem progress_of_run (bad : String → Bool) (w w' : World) (turns : List Turn)
    (order : List KnowledgeDoc) (hw : DistinctTimes w) (horder : IsPending w order)
    (hserves : ∀ env, Turn.run env ∈ turns → env.Serves bad) (hrun : run turn w turns = some w') :
    ∀ d ∈ (order.filter fun d => !bad d.id).take
        (runs turns * (10 - order.countP fun d => bad d.id)),
      (∃ d' ∈ w'.docs.rows, d.Processing d') ∧ ∃ job ∈ pushed w w', job.Carries d := by
  have hnew : IsPending w (order ++ []) := by rwa [List.append_nil]
  intro d hd
  obtain ⟨hmarked, hjob⟩ := progress_of_pending hw hnew hserves hrun le_rfl d hd
  exact ⟨hmarked, d.job, hjob, d.job_carries⟩

def thirdDoc : KnowledgeDoc := { uploadedDoc with id := "d2", minioKey := "k2", createdAt := 2 }

/-- The first document fails again and again, and a third one is uploaded. -/
def slowTurns : List Turn :=
  [.run failingUpdate, .upload thirdDoc,
    .run { failingUpdate with find := { order := [uploadedDoc, thirdDoc] } }]

theorem progress_slowTurns : ∃ w, run turn twoDocs slowTurns = some w ∧
    (w.docs.rows.map fun d => (d.id, d.status)) =
      [("d0", .UPLOADED), ("d1", .PROCESSING), ("d2", .PROCESSING)] ∧
    ∀ d ∈ ([uploadedDoc, secondDoc].filter fun d => !decide (d.id = "d0")).take
        (runs slowTurns * (10 - [uploadedDoc, secondDoc].countP fun d => d.id = "d0")),
      (∃ d' ∈ w.docs.rows, d.Processing d') ∧ ∃ job ∈ pushed twoDocs w, job.Carries d := by
  have hrun : (run turn twoDocs slowTurns).map
      (fun w => w.docs.rows.map fun d => (d.id, d.status)) =
        some [("d0", .UPLOADED), ("d1", .PROCESSING), ("d2", .PROCESSING)] := by decide
  obtain ⟨w, hw, hrows⟩ := Option.map_eq_some_iff.1 hrun
  have htimes : DistinctTimes twoDocs := by
    unfold DistinctTimes
    decide
  refine ⟨w, hw, hrows, progress_of_run (fun id => id = "d0") twoDocs w slowTurns
    [uploadedDoc, secondDoc] htimes (by decide) (fun env henv => ?_) hw⟩
  have hcases : env = failingUpdate ∨
      env = { failingUpdate with find := { order := [uploadedDoc, thirdDoc] } } := by
    simpa [slowTurns] using henv
  rcases hcases with rfl | rfl <;> exact ⟨rfl, by decide⟩

/-! ### A full batch -/

/-- **Ten documents that fail block all others**: as long as they are the oldest that wait, no
document leaves `UPLOADED`, however often the dispatcher runs. -/
theorem blocked_of_run (bad : String → Bool) (w w' : World) (turns : List Turn)
    (order : List KnowledgeDoc) (hw : DistinctTimes w) (horder : IsPending w order)
    (hfull : 10 ≤ order.length) (hbad : ∀ d ∈ order.take 10, bad d.id = true)
    (hfails : ∀ env, Turn.run env ∈ turns → env.Fails bad) (hrun : run turn w turns = some w') :
    w'.docs.rows = w.docs.rows ++ uploads turns := by
  induction turns generalizing w order with
  | nil => cases hrun; exact (List.append_nil _).symm
  | cons t turns ih =>
    obtain ⟨v, hv, hrest⟩ := (run_cons_eq_some turn).1 hrun
    have hlater := fun env henv => hfails env (List.mem_cons_of_mem t henv)
    cases t with
    | run env =>
      have hdispatch := dispatchRun hv
      -- nothing in the batch is delivered, so the run leaves all rows as they are
      have hnone : ∀ t ∈ env.targets, ¬ env.Delivers t := fun t ht =>
        hfails env List.mem_cons_self t ht (hbad t (targets_subset hv hw horder ht))
      have hrows : v.docs.rows = w.docs.rows := by
        rw [hdispatch.rows, List.map_congr_left fun d _ => markAll_eq_self fun t ht _ => hnone t ht,
          List.map_id']
      have hwaits : IsPending v order := by
        unfold IsPending World.IsAnswer
        rw [hrows]
        exact horder
      rw [ih v order (hw.turn hv) hwaits hfull hbad hlater hrest, hrows]
      rfl
    | upload doc =>
      have hrows := (turn_upload hv).2.2.1
      have htake : (order ++ [doc]).take 10 = order.take 10 :=
        List.take_append_of_le_length hfull
      have hlen : 10 ≤ (order ++ [doc]).length := by
        rw [List.length_append]
        omega
      rw [ih v (order ++ [doc]) (hw.turn hv) (horder.upload hv) hlen (htake ▸ hbad) hlater hrest,
        hrows, List.append_assoc]
      rfl

/-- Ten documents. -/
def oldDocs : List KnowledgeDoc :=
  (List.range 10).map fun n =>
    { uploadedDoc with id := "old" ++ toString n, minioKey := toString n, createdAt := n }

def tenDocs : World := { World.empty with docs := ⟨oldDocs, by decide +kernel⟩ }

def freshDoc : KnowledgeDoc := { uploadedDoc with id := "new", minioKey := "new", createdAt := 10 }

/-- Redis is reached for the new document only. -/
def noRedis (order : List KnowledgeDoc) : DispatchEnv where
  find := { order := order }
  rpush d := if d.id = "new" then {} else { fail := some "timeout" }
  update _ := {}

def blockedTurns : List Turn :=
  [.run (noRedis oldDocs), .upload freshDoc, .run (noRedis (oldDocs ++ [freshDoc]))]

theorem blocked_tenDocs : ∃ w, run turn tenDocs blockedTurns = some w ∧
    w.docs.rows = tenDocs.docs.rows ++ uploads blockedTurns := by
  have hrun : (run turn tenDocs blockedTurns).isSome = true := by decide +kernel
  obtain ⟨w, hw⟩ := Option.isSome_iff_exists.1 hrun
  have htimes : DistinctTimes tenDocs := by
    unfold DistinctTimes
    decide +kernel
  refine ⟨w, hw, blocked_of_run (fun id => id ≠ "new") tenDocs w blockedTurns oldDocs htimes
    (by decide +kernel) (by decide) (by decide +kernel) (fun env henv => ?_) hw⟩
  have hcases : env = noRedis oldDocs ∨ env = noRedis (oldDocs ++ [freshDoc]) := by
    simpa [blockedTurns] using henv
  have hno : ∀ order, (noRedis order).Fails fun id => id ≠ "new" := by
    intro order doc _ hbad hdel
    have hpush : ((noRedis order).rpush doc).fail = some "timeout" := by
      simp only [noRedis]
      rw [if_neg (of_decide_eq_true hbad)]
    rw [hdel.1] at hpush
    cases hpush
  rcases hcases with rfl | rfl <;> exact hno _

end ProtostarNest.Knowledge
