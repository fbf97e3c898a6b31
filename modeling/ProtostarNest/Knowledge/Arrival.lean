import ProtostarNest.Knowledge.Dispatcher

/-!
# The order of dispatching

The dispatcher takes the ten waiting documents with the earliest `createdAt`.  A replacement makes
a document wait again and leaves its `createdAt` as it is, so the document comes before others
that have waited for longer.

* `since`: when the version of a document was made, by the statements in `history`;
* `FirstCome`, `overtaken_not_firstCome`: first come, first served, and a run in which it is not;
* `InOrder`, `ArrivalOrder`: the order by creation, and that by arrival for documents at their first
  version;
* `Full`: the size of a batch;
* `inOrder_of_run`: each run of the dispatcher keeps the first, and the second if the clock goes
  forward, with full batches.
-/

namespace ProtostarNest.Knowledge

open Transition

/-- The statement made a version of the row. -/
def Commit.makes (id : String) : Commit → Bool
  | .created id' _ => id' = id
  | .replaced id' _ => id' = id
  | _ => false

/-- The number of statements up to the one that made the present version of the row. -/
def since (id : String) : List Commit → ℕ
  | [] => 0
  | c :: history => if c.makes id then history.length + 1 else since id history

theorem since_le (id : String) (history : List Commit) : since id history ≤ history.length := by
  induction history with
  | nil => exact Nat.le_refl _
  | cons c history ih =>
    rw [since, List.length_cons]
    split_ifs
    · exact Nat.le_refl _
    · omega

theorem since_cons_of_ne {id : String} {c : Commit} (h : c.docId ≠ id) (history : List Commit) :
    since id (c :: history) = since id history := by
  have hmakes : c.makes id = false := by
    cases c with
    | created id' minioKey => exact decide_eq_false h
    | replaced id' minioKey => exact decide_eq_false h
    | _ => rfl
  rw [since, hmakes, if_neg Bool.false_ne_true]

/-! ### Batches -/

/-- The documents that a step of the dispatcher selects: those that it goes on with. -/
def batchOf (s s' : Sys) : Event → List KnowledgeDoc
  | .resume i _ =>
      match s.pc? i, s'.pc? i with
      | some .dispatchFind, some (.dispatchPush doc rest) => doc :: rest
      | _, _ => []
  | .request _ => []

/-- All that the dispatcher selects along a run. -/
def selected (cfg : Config) : Sys → List Event → List KnowledgeDoc
  | _, [] => []
  | s, e :: es =>
      match step cfg s e with
      | none => []
      | some t => batchOf s t e ++ selected cfg t es

/-- A document that became `UPLOADED` later is not selected while one is left out that has waited
since before it and was not selected in any run. -/
def FirstCome (w : World) (seen batch : List KnowledgeDoc) : Prop :=
  ∀ sel ∈ batch, ∀ left ∈ w.docs.rows, left.status = .UPLOADED → left ∉ batch →
    left.id ∉ seen.map KnowledgeDoc.id → since sel.id w.history ≤ since left.id w.history

/-- A document is not selected while one is left out that was created before it. -/
def InOrder (w : World) (batch : List KnowledgeDoc) : Prop :=
  ∀ sel ∈ batch, ∀ left ∈ w.docs.rows, left.status = .UPLOADED → left ∉ batch →
    sel.createdAt ≤ left.createdAt

/-- A document at its first version is not selected while one is left out that has waited since
before it, unless both were created at the same time. -/
def ArrivalOrder (w : World) (batch : List KnowledgeDoc) : Prop :=
  ∀ sel ∈ batch, ∀ left ∈ w.docs.rows, left.status = .UPLOADED → left ∉ batch →
    sel.version = 1 → since left.id w.history < since sel.id w.history →
      left.createdAt = sel.createdAt

/-- A query of the dispatcher that succeeds selects ten waiting documents, or all when there are
fewer. -/
def Full (s s' : Sys) (e : Event) : Prop :=
  ∀ i env, e = .resume i env → env.fail = none → s.pc? i = some .dispatchFind →
    (batchOf s s' e).Subperm (s.world.docs.rows.filter fun d => d.status = .UPLOADED) ∧
      (batchOf s s' e).length =
        min 10 (s.world.docs.rows.filter fun d => d.status = .UPLOADED).length

instance (w : World) (seen batch : List KnowledgeDoc) : Decidable (FirstCome w seen batch) :=
  inferInstanceAs (Decidable (∀ sel ∈ batch, ∀ left ∈ w.docs.rows, _))

/-- The call that is about to be made creates a row. -/
def Pc.creating : Pc → Bool
  | .processCreate _ _ _ => true
  | _ => false

/-- The request is a run of the dispatcher on its way. -/
def Pc.Dispatching : Pc → Bool
  | .dispatchFind => true
  | .dispatchPush _ _ => true
  | .dispatchUpdate _ _ => true
  | _ => false

/-- When a row is created, the clock is not behind the rows that are there. -/
def ClockForward (s : Sys) : Event → Prop
  | .resume i env =>
      ∀ pc ∈ s.pc? i, pc.creating = true → env.fail = none →
        ∀ d ∈ s.world.docs.rows, d.createdAt ≤ env.now
  | .request _ => True

instance (s : Sys) : (e : Event) → Decidable (ClockForward s e)
  | .resume i env => inferInstanceAs (Decidable (∀ pc ∈ s.pc? i, pc.creating = true →
      env.fail = none → ∀ d ∈ s.world.docs.rows, d.createdAt ≤ env.now))
  | .request _ => instDecidableTrue

/-! ### Documents at their first version -/

/-- A row at its first version was created after those that have had their versions for
longer. -/
structure Timed (w : World) : Prop where
  versions : ∀ d ∈ w.docs.rows, 1 ≤ d.version
  ordered : ∀ d ∈ w.docs.rows, d.version = 1 → ∀ d' ∈ w.docs.rows,
    since d'.id w.history < since d.id w.history → d'.createdAt ≤ d.createdAt

section Timed

variable {cfg : Config} {s s' : Sys} {e : Event} {w w' : World} {env : Env} {pc pc' : Pc}
  {d : KnowledgeDoc} {c : Commit}

/-- A call adds at most one statement. -/
theorem Advance.history (h : Advance cfg w env pc w' pc') :
    w'.history = w.history ∨ ∃ c, w'.history = c :: w.history := by
  cases h with
  | created | replaced | rowDeleted | marked | answered => exact Or.inr ⟨_, rfl⟩
  | _ => exact Or.inl rfl

/-- The statement that was added, if it changed the row. -/
theorem Advance.history_of_log (h : Advance cfg w env pc w' pc') {id : String}
    (hlog : w'.log id = c :: w.log id) : w'.history = c :: w.history := by
  rcases h.history with hsame | ⟨c', hc'⟩
  · rw [World.log, hsame] at hlog
    exact absurd (congrArg List.length hlog) (by simp [World.log])
  · rw [World.log, hc', List.filter_cons] at hlog
    split_ifs at hlog
    · rw [hc', (List.cons.inj hlog).1]
    · exact absurd (congrArg List.length hlog) (by simp [World.log])

/-- A statement on other rows does not change the age of a version. -/
theorem Advance.since_of_log (h : Advance cfg w env pc w' pc') {id : String}
    (hlog : w'.log id = w.log id) : since id w'.history = since id w.history := by
  rcases h.history with hsame | ⟨c, hc⟩
  · rw [hsame]
  · rw [World.log, hc, List.filter_cons] at hlog
    split_ifs at hlog with hid
    · exact absurd (congrArg List.length hlog) (by simp [World.log])
    · rw [hc, since_cons_of_ne (by simpa using hid)]

/-- What a row was before a call: the same as far as its age goes, the version before, or not
there. -/
theorem Advance.age (h : Advance cfg w env pc w' pc') (hd : d ∈ w'.docs.rows) :
    (∃ d₀ ∈ w.docs.rows, d₀.version = d.version ∧ d₀.createdAt = d.createdAt ∧
      since d.id w'.history = since d₀.id w.history) ∨
    since d.id w'.history = w.history.length + 1 ∧
      ((∃ d₀ ∈ w.docs.rows, d.version = d₀.version + 1) ∨
        (d.version = 1 ∧ d.createdAt = env.now ∧ pc.creating = true ∧ env.fail = none)) := by
  cases h.row hd with
  | same _ _ hd₀ hlog => exact Or.inl ⟨d, hd₀, rfl, rfl, h.since_of_log hlog⟩
  | created user file minioKey hfail hlog =>
    refine Or.inr ⟨?_, Or.inr ⟨rfl, rfl, rfl, hfail⟩⟩
    rw [h.history_of_log hlog]
    exact if_pos (decide_eq_true rfl)
  | replaced user title file minioKey d₀ hfail hd₀ hlog =>
    refine Or.inr ⟨?_, Or.inl ⟨d₀, hd₀, rfl⟩⟩
    rw [h.history_of_log hlog]
    exact if_pos (decide_eq_true rfl)
  | dispatched doc rest d₀ hfail hd₀ hid hlog =>
    refine Or.inl ⟨d₀, hd₀, rfl, rfl, ?_⟩
    rw [h.history_of_log hlog]
    rfl
  | answered dto answers metaData d₀ hfail hmeta hd₀ hid hlog =>
    refine Or.inl ⟨d₀, hd₀, rfl, rfl, ?_⟩
    rw [h.history_of_log hlog]
    rfl

theorem Timed.advance (hw : Timed w) (h : Advance cfg w env pc w' pc')
    (hclock : pc.creating = true → env.fail = none → ∀ d ∈ w.docs.rows, d.createdAt ≤ env.now) :
    Timed w' := by
  refine ⟨fun d hd => ?_, fun d hd hversion d' hd' hlt => ?_⟩
  · rcases h.age hd with ⟨d₀, hd₀, hv, -, -⟩ | ⟨-, ⟨d₀, -, hv⟩ | ⟨hv, -⟩⟩
    · rw [← hv]
      exact hw.versions d₀ hd₀
    · omega
    · omega
  · rcases h.age hd with ⟨d₀, hd₀, hv, hc, hs⟩ | ⟨hs, hnew⟩
    · rcases h.age hd' with ⟨d₁, hd₁, -, hc', hs'⟩ | ⟨hs', -⟩
      · rw [← hc, ← hc']
        exact hw.ordered d₀ hd₀ (hv.trans hversion) d₁ hd₁ (by omega)
      · -- the newer one is the one that the call has written
        have hle := since_le d₀.id w.history
        omega
    · rcases h.age hd' with ⟨d₁, hd₁, -, hc', -⟩ | ⟨hs', -⟩
      · rcases hnew with ⟨d₀, hd₀, hv⟩ | ⟨-, hc, hcreating, hfail⟩
        · have hpos := hw.versions d₀ hd₀
          omega
        · rw [hc, ← hc']
          exact hclock hcreating hfail d₁ hd₁
      · omega

theorem Timed.step (hs : Timed s.world) (hclock : ClockForward s e)
    (h : step cfg s e = some s') : Timed s'.world := by
  refine world_step hs h fun i env op w pc he hc => ?_
  subst he
  exact hs.advance hc.advance (hclock op.pc (s.pc?_of_getElem? hc.op_eq))

theorem timed_empty : Timed World.empty :=
  ⟨fun _ hd => absurd hd List.not_mem_nil, fun _ hd => absurd hd List.not_mem_nil⟩

end Timed

/-! ### Every run of the dispatcher -/

section Order

variable {cfg : Config} {s s' : Sys} {e : Event} {d : KnowledgeDoc}

/-- What the query of a dispatcher selects, if it does not fail. -/
theorem batchOf_query {i : ℕ} {env : Env} (h : step cfg s (.resume i env) = some s')
    (hpc : s.pc? i = some .dispatchFind) :
    (env.fail ≠ none ∧ batchOf s s' (.resume i env) = []) ∨
      ∃ order, IsPending s.world order ∧
        batchOf s s' (.resume i env) = order.take DISPATCH_TAKE := by
  obtain ⟨pc', hadv, hpc'⟩ := advance_of_calling h hpc trivial
  simp only [advance] at hadv
  split at hadv
  · rename_i hfail
    obtain ⟨-, rfl⟩ := Prod.mk.inj (Option.some.inj hadv)
    refine Or.inl ⟨?_, ?_⟩
    · rw [hfail]
      exact Option.some_ne_none _
    · simp only [batchOf, hpc, hpc', Pc.throw]
  · split_ifs at hadv with hpending
    obtain ⟨-, rfl⟩ := Prod.mk.inj (Option.some.inj hadv)
    refine Or.inr ⟨env.order, hpending, ?_⟩
    simp only [batchOf, hpc, hpc']
    cases env.order.take DISPATCH_TAKE <;> rfl

/-- A step that selects documents is the query of a dispatcher. -/
theorem batchOf_cases (h : step cfg s e = some s') (hd : d ∈ batchOf s s' e) :
    ∃ order, IsPending s.world order ∧ batchOf s s' e = order.take DISPATCH_TAKE := by
  cases e with
  | request r => cases hd
  | resume i env =>
    by_cases hpc : s.pc? i = some .dispatchFind
    · refine (batchOf_query h hpc).resolve_left fun hnone => ?_
      rw [hnone.2] at hd
      cases hd
    · simp only [batchOf] at hd
      split at hd
      · rename_i hfind _
        exact absurd hfind hpc
      · cases hd

/-- What is left out of a batch was created no earlier than what is in it. -/
theorem IsPending.createdAt_le {w : World} {order : List KnowledgeDoc} (h : IsPending w order)
    {n : ℕ} {sel left : KnowledgeDoc} (hsel : sel ∈ order.take n) (hleft : left ∈ w.docs.rows)
    (hstatus : left.status = .UPLOADED) (hout : left ∉ order.take n) :
    sel.createdAt ≤ left.createdAt := by
  have hsorted := h.2
  have hmem := h.mem_iff.2 ⟨hleft, hstatus⟩
  rw [← List.take_append_drop n order] at hsorted hmem
  rcases List.mem_append.1 hmem with hin | hdrop
  · exact absurd hin hout
  · exact (List.pairwise_append.1 hsorted).2.2 sel hsel left hdrop

theorem full_step (h : step cfg s e = some s') : Full s s' e := by
  intro i env he hfail hpc
  subst he
  obtain ⟨hfails, -⟩ | ⟨order, ⟨hperm, -⟩, hbatch⟩ := batchOf_query h hpc
  · exact absurd hfail hfails
  · rw [hbatch]
    refine ⟨(List.take_sublist _ _).subperm.trans hperm.subperm, ?_⟩
    rw [List.length_take, hperm.length_eq]
    rfl

/-- **The dispatcher selects ten waiting documents or all, by the order of their creation, in which
documents at their first version have also arrived**, if the clock goes forward. -/
theorem inOrder_of_run (cfg : Config) (es : List Event) (e : Event) (s s' : Sys)
    (hrun : run (step cfg) (Sys.boot World.empty) es = some s) (hstep : step cfg s e = some s') :
    Full s s' e ∧ InOrder s.world (batchOf s s' e) ∧
      (Meets (step cfg) ClockForward (Sys.boot World.empty) es →
        ArrivalOrder s.world (batchOf s s' e)) := by
  have horder : InOrder s.world (batchOf s s' e) := by
    intro sel hsel left hleft hstatus hout
    obtain ⟨order, hpending, hbatch⟩ := batchOf_cases hstep hsel
    rw [hbatch] at hsel hout
    exact hpending.createdAt_le hsel hleft hstatus hout
  refine ⟨full_step hstep, horder,
    fun hclock sel hsel left hleft hstatus hout hversion hlt => ?_⟩
  obtain ⟨order, hpending, hbatch⟩ := batchOf_cases hstep hsel
  have htimed : Timed s.world :=
    invariant_of_meets (fun _ _ _ hs hclock hstep => Timed.step hs hclock hstep) timed_empty
      hclock s (Visits.of_run hrun)
  have hselrow := (hpending.mem_iff.1 (List.mem_of_mem_take (hbatch ▸ hsel))).1
  exact Nat.le_antisymm (htimed.ordered sel hselrow hversion left hleft hlt)
    (horder sel hsel left hleft hstatus hout)

end Order

/-! Ten documents of one user and one of another, and a replacement of the first. -/

/-- The upload of one file, as far as its row. -/
def uploadOne (user : User) (j : ℕ) : List Event :=
  [.request (.uploadFiles user [exampleFile]), .resume (2 * j) {}, .resume (2 * j) {},
    .resume (2 * j + 1) { uuid := toString j },
    .resume (2 * j + 1) { id := toString j, now := j + 1 }, .resume (2 * j + 1) {}]

def overtakingRun : List Event :=
  (List.range 10).flatMap (uploadOne alice) ++ uploadOne ⟨"bob"⟩ 10 ++
    [.request (.replaceFile alice "0" "again" exampleFile), .resume 22 {},
      .resume 22 { uuid := "again" }, .resume 22 {}, .resume 22 { now := 12 },
      .request .dispatchPendingTasks]

/-- The eleven rows, in the order of their creation. -/
def waitingRows : List KnowledgeDoc :=
  ((run (step exampleConfig) (Sys.boot World.empty) overtakingRun).map
    fun s => s.world.docs.rows).getD []

/-- Uploads, replacements, deletions, and runs of the dispatcher of which no two overlap. -/
def NoOverlap (s : Sys) : Event → Prop
  | .request .dispatchPendingTasks => ∀ op ∈ s.ops, op.pc.Dispatching = false
  | .request (.updateDocStatusViaWebhook _ _) => False
  | _ => True

instance (s : Sys) : (e : Event) → Decidable (NoOverlap s e)
  | .request .dispatchPendingTasks =>
      inferInstanceAs (Decidable (∀ op ∈ s.ops, op.pc.Dispatching = false))
  | .request (.updateDocStatusViaWebhook _ _) => instDecidableFalse
  | .request (.uploadFiles _ _) => instDecidableTrue
  | .request (.replaceFile _ _ _ _) => instDecidableTrue
  | .request (.deleteFile _ _) => instDecidableTrue
  | .request (.findAll _) => instDecidableTrue
  | .resume _ _ => instDecidableTrue

/-- The query of the dispatcher. -/
def dispatchQuery : Event := .resume 23 { order := waitingRows }

theorem inOrder_overtaking : ∃ s s',
    run (step exampleConfig) (Sys.boot World.empty) overtakingRun = some s ∧
      step exampleConfig s dispatchQuery = some s' ∧
      (batchOf s s' dispatchQuery).map KnowledgeDoc.id = (List.range 10).map toString ∧
      InOrder s.world (batchOf s s' dispatchQuery) ∧
      ArrivalOrder s.world (batchOf s s' dispatchQuery) := by
  have hrun : (run (step exampleConfig) (Sys.boot World.empty) overtakingRun).bind
      (fun s => (step exampleConfig s dispatchQuery).map fun s' =>
        (batchOf s s' dispatchQuery).map KnowledgeDoc.id) =
          some ((List.range 10).map toString) := by decide +kernel
  obtain ⟨s, hs, hlast⟩ := Option.bind_eq_some_iff.1 hrun
  obtain ⟨s', hs', hbatch⟩ := Option.map_eq_some_iff.1 hlast
  obtain ⟨-, horder, harrival⟩ :=
    inOrder_of_run exampleConfig overtakingRun dispatchQuery s s' hs hs'
  exact ⟨s, s', hs, hs', hbatch, horder, harrival (by decide +kernel)⟩

/-- The replaced document overtakes that of the other user, which came between its versions. -/
theorem overtaken_not_firstCome :
    ¬ ∀ (cfg : Config) (es : List Event) (e : Event) (s s' : Sys),
      Meets (step cfg) NoOverlap (Sys.boot World.empty) (es ++ [e]) →
        run (step cfg) (Sys.boot World.empty) es = some s → step cfg s e = some s' →
          FirstCome s.world (selected cfg (Sys.boot World.empty) es) (batchOf s s' e) := by
  intro h
  have hrun : (run (step exampleConfig) (Sys.boot World.empty) overtakingRun).bind
      (fun s => (step exampleConfig s dispatchQuery).map fun s' =>
        decide (FirstCome s.world
          (selected exampleConfig (Sys.boot World.empty) overtakingRun)
          (batchOf s s' dispatchQuery))) = some false := by decide +kernel
  obtain ⟨s, hs, hlast⟩ := Option.bind_eq_some_iff.1 hrun
  obtain ⟨s', hs', hfirst⟩ := Option.map_eq_some_iff.1 hlast
  exact of_decide_eq_false hfirst
    (h exampleConfig overtakingRun dispatchQuery s s' (by decide +kernel) hs hs')

end ProtostarNest.Knowledge
