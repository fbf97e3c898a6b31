import ProtostarNest.Knowledge.Columns
import ProtostarNest.Knowledge.Settling

/-!
# What an upload reports

A call of `uploadFiles` from its arrival to its answer, among any other requests.  Its tasks run in
any order, and each of them can be refused by the queue, fail at the storage or fail at the table.

* `createdBy`, `outcomesOf`, `admission`: the rows that a task has created, the outcomes of its
  two calls, and the server at the step in which an upload adds its tasks;
* `FileTask`: how the task of a file, its rows and its outcomes belong together;
* `Batch`: the same for the upload and all its tasks, `batch_step`: each step keeps it;
* `Reports`: what can be read off that: the row of a file depends on its own calls only, and the
  answer shows the rows of all files in their order, with a count made after the last of them;
* `upload_reports`: it is so at any time, and in a fair execution there is an answer.
-/

namespace ProtostarNest.Knowledge

open Transition Queue

/-! ### The rows and calls of a task -/

/-- The rows of `w'` that are not in `w`. -/
def newRows (w w' : World) : List KnowledgeDoc :=
  w'.docs.rows.filter fun d => d.id ∉ w.docs.rows.map KnowledgeDoc.id

/-- Whether the call that the task `j` awaits succeeds: an upload unless the storage fails, a
`create` unless the database fails or has a row of that id. -/
def outcome (s : Sys) (j : ℕ) (env : Env) : List Bool :=
  match s.pc? j with
  | some (.processPut _ _) => [env.fail = none]
  | some (.processCreate _ _ _) =>
      [env.fail = none ∧ env.id ∉ s.world.docs.rows.map KnowledgeDoc.id]
  | _ => []

/-- The server, if the next step of the request `j` adds the tasks of an upload. -/
def adding (s : Sys) (j : ℕ) : Option Sys :=
  match s.pc? j with
  | some (.uploadAdmit _ _ _) => some s
  | _ => none

/-- The rows that a step of the task `j` creates. -/
def createdIn (j : ℕ) : Sys × Event × Sys → List KnowledgeDoc
  | (s, .resume i _, t) => if i = j then newRows s.world t.world else []
  | (_, .request _, _) => []

/-- The outcome of the call that a step of the task `j` makes. -/
def outcomeIn (j : ℕ) : Sys × Event × Sys → List Bool
  | (s, .resume i env, _) => if i = j then outcome s j env else []
  | (_, .request _, _) => []

/-- The state in which a step of the upload `j` adds its tasks. -/
def admissionIn (j : ℕ) : Sys × Event × Sys → Option Sys
  | (s, .resume i _, _) => if i = j then adding s j else none
  | (_, .request _, _) => none

section History

variable (j : ℕ) (l : List (Sys × Event × Sys))

def createdBy : List KnowledgeDoc := l.flatMap (createdIn j)

def outcomesOf : List Bool := l.flatMap (outcomeIn j)

def admission : Option Sys := l.findSome? (admissionIn j)

end History

/-- The count query at a control point succeeds, and the first one finds the files within the
quota. -/
def Pc.Counts (user : User) (files : List MulterFile) (w : World) (env : Env) : Pc → Prop
  | .uploadCount _ _ =>
      env.fail = none ∧ w.count user.id + files.length ≤ PERSONAL_MAX_UPLOADS
  | .formatCount _ _ => env.fail = none
  | _ => True

/-- So do the queries of the upload `i`. -/
def Counts (user : User) (files : List MulterFile) (i : ℕ) (s : Sys) : Event → Prop
  | .resume j env => j = i → ∀ pc ∈ s.pc? i, pc.Counts user files s.world env
  | .request _ => True

instance (user : User) (files : List MulterFile) (w : World) (env : Env) (pc : Pc) :
    Decidable (pc.Counts user files w env) := by
  rcases pc <;> first
    | exact instDecidableTrue
    | exact inferInstanceAs (Decidable (_ ∧ _))
    | exact inferInstanceAs (Decidable (_ = _))

instance (user : User) (files : List MulterFile) (i : ℕ) (s : Sys) (e : Event) :
    Decidable (Counts user files i s e) :=
  match e with
  | .resume _ _ => inferInstanceAs (Decidable (_ → _))
  | .request _ => instDecidableTrue

/-- The tasks of an upload of `files` that adds them in the state `a`, in the order of the files. -/
def Sys.tasksOf (a : Sys) (files : List MulterFile) : List ℕ :=
  List.range' a.ops.length files.length

/-- What the upload `i` of `files` has done and told in the state `s`, after the steps `l`. The
task of the file at position `k` is the one with the number `a.ops.length + k`, for the state `a`
in which the tasks were added. -/
structure Reports (cfg : Config) (user : User) (files : List MulterFile) (i : ℕ)
    (l : List (Sys × Event × Sys)) (s : Sys) : Prop where
  /-- A file creates at most one row, from its own data. -/
  one_row : ∀ a, admission i l = some a → ∀ k file, files[k]? = some file →
    createdBy (a.ops.length + k) l = [] ∨
      ∃ d, createdBy (a.ops.length + k) l = [d] ∧ d.Stores cfg user file
  /-- It does so exactly if there is room for its task and its own calls succeed. -/
  isolated : ∀ a, admission i l = some a → ∀ k, k < files.length →
    (createdBy (a.ops.length + k) l ≠ [] ↔
      a.queue.load + k < CONCURRENCY + MAX_PENDING ∧
        outcomesOf (a.ops.length + k) l = [true, true])
  /-- The upload creates no row outside of its tasks. -/
  no_other : createdBy i l = []
  /-- It is answered with the rows that it created, in the order of the files, and with the number
  of rows that the user had in a state `b` after the last of them. -/
  answer : ∀ result, s.pc? i = some (.done result) →
    ∃ a b env t r, admission i l = some a ∧ (b, .resume i env, t) ∈ l ∧
      (∀ j ∈ a.tasksOf files, b.Settled j) ∧ result = .ok (.response r) ∧
      r.Tells ((a.tasksOf files).flatMap fun j => createdBy j l) user b.world

/-! ### One step of the history -/

section Steps

variable {cfg : Config} {s t : Sys} {e : Event} {j : ℕ} {l : List (Sys × Event × Sys)}

theorem createdBy_concat (j : ℕ) (l : List (Sys × Event × Sys)) (p : Sys × Event × Sys) :
    createdBy j (l ++ [p]) = createdBy j l ++ createdIn j p := by
  rw [createdBy, List.flatMap_append, List.flatMap_singleton]
  rfl

theorem outcomesOf_concat (j : ℕ) (l : List (Sys × Event × Sys)) (p : Sys × Event × Sys) :
    outcomesOf j (l ++ [p]) = outcomesOf j l ++ outcomeIn j p := by
  rw [outcomesOf, List.flatMap_append, List.flatMap_singleton]
  rfl

theorem admission_concat (j : ℕ) (l : List (Sys × Event × Sys)) (p : Sys × Event × Sys) :
    admission j (l ++ [p]) = (admission j l).or (admissionIn j p) := by
  rw [admission, List.findSome?_append, List.findSome?_singleton]
  rfl

theorem createdIn_of_not_of (he : ¬ e.Of j) : createdIn j (s, e, t) = [] := by
  cases e with
  | request r => rfl
  | resume i env => exact if_neg he

theorem outcomeIn_of_not_of (he : ¬ e.Of j) : outcomeIn j (s, e, t) = [] := by
  cases e with
  | request r => rfl
  | resume i env => exact if_neg he

theorem admissionIn_of_not_of (he : ¬ e.Of j) : admissionIn j (s, e, t) = none := by
  cases e with
  | request r => rfl
  | resume i env => exact if_neg he

theorem newRows_self (w : World) : newRows w w = [] := by
  refine List.filter_eq_nil_iff.2 fun d hd => ?_
  simpa using ⟨d, hd, rfl⟩

theorem newRows_create {w : World} {doc : KnowledgeDoc} {docs : Table KnowledgeDoc.id}
    (h : w.docs.create doc = some docs) (c : Commit) : newRows w (w.commit docs c) = [doc] := by
  obtain ⟨hnew, hrows⟩ := Table.create_eq_some.1 h
  have hold := newRows_self w
  unfold newRows at hold ⊢
  rw [show (w.commit docs c).docs.rows = w.docs.rows ++ [doc] from hrows, List.filter_append,
    hold, List.nil_append]
  exact List.filter_eq_self.2 (by simpa using hnew)

end Steps

/-! ### The task of a file -/

/-- Where the task of a file is, with the rows that it has created and the outcomes of its calls.
The index says whether it was added to the queue. -/
inductive FileTask (cfg : Config) (user : User) (file : MulterFile) :
    Bool → Op → List KnowledgeDoc → List Bool → Prop
  | refused : FileTask cfg user file false ⟨false, .throw (.Error queueFullMessage)⟩ [] []
  | added : FileTask cfg user file true ⟨true, .processPut user file⟩ [] []
  | stored (minioKey : String) :
      FileTask cfg user file true ⟨true, .processCreate user file minioKey⟩ [] [true]
  | created (queued : Bool) (env : Env) (minioKey : String) :
      FileTask cfg user file true
        ⟨queued, .done (.ok (.doc (newDoc cfg env user file minioKey)))⟩
        [newDoc cfg env user file minioKey] [true, true]
  | failed (queued : Bool) (e : Exception) (outcomes : List Bool) (hfalse : false ∈ outcomes) :
      FileTask cfg user file true ⟨queued, .throw e⟩ [] outcomes

section Task

variable {cfg : Config} {user : User} {file : MulterFile} {added : Bool} {op : Op}
  {rows : List KnowledgeDoc} {outcomes : List Bool}

theorem FileTask.one_row (h : FileTask cfg user file added op rows outcomes) :
    rows = [] ∨ ∃ d, rows = [d] ∧ d.Stores cfg user file := by
  cases h with
  | created queued env minioKey =>
    exact Or.inr ⟨_, rfl, newDoc_stores cfg env file minioKey user⟩
  | _ => exact Or.inl rfl

theorem FileTask.rows_ne_nil_iff (h : FileTask cfg user file added op rows outcomes) :
    rows ≠ [] ↔ added = true ∧ outcomes = [true, true] := by
  cases h with
  | failed queued e outcomes hfalse =>
    refine iff_of_false (fun hne => hne rfl) ?_
    rintro ⟨-, rfl⟩
    simp at hfalse
  | _ => simp

/-- A promise has a value once its task has ended and left the queue. -/
theorem Op.settled_of_value {v : Option KnowledgeDoc} (h : op.value = some v) :
    op.queued = false ∧ ∃ result, op.pc = .done result := by
  unfold Op.value at h
  split at h
  · exact ⟨rfl, _, rfl⟩
  · exact ⟨rfl, _, rfl⟩
  · cases h

/-- The value is the row of the task, if it has created one. -/
theorem FileTask.value (h : FileTask cfg user file added op rows outcomes)
    {v : Option KnowledgeDoc} (hv : op.value = some v) : v.toList = rows := by
  obtain ⟨hq, -⟩ := Op.settled_of_value hv
  cases h with
  | refused =>
    obtain rfl := Option.some.inj hv
    rfl
  | added => cases hv
  | stored minioKey => cases hv
  | created queued env minioKey =>
    obtain rfl : queued = false := hq
    obtain rfl := Option.some.inj hv
    rfl
  | failed queued e outcomes hfalse =>
    obtain rfl : queued = false := hq
    obtain rfl := Option.some.inj hv
    rfl

/-- A task that is not in the queue has ended. -/
theorem FileTask.done (h : FileTask cfg user file added op rows outcomes)
    (hq : op.queued = false) : ∃ result, op.pc = .done result := by
  cases h with
  | added => cases hq
  | stored minioKey => cases hq
  | _ => exact ⟨_, rfl⟩

theorem FileTask.task (h : FileTask cfg user file added op rows outcomes) : op.pc.Task := by
  cases h <;> trivial

variable {s t : Sys} {e : Event} {j : ℕ}

/-- The call of the storage. -/
theorem fileTask_put {env : Env} {w : World} {pc : Pc}
    (hpc : s.pc? j = some (.processPut user file))
    (hadv : advance cfg s.world env (.processPut user file) = some (w, pc)) :
    FileTask cfg user file true ⟨true, pc⟩ (newRows s.world w) (outcome s j env) := by
  simp only [outcome, hpc]
  simp only [advance, World.uploadFile] at hadv
  cases hfail : env.fail with
  | some message =>
    simp only [hfail, Option.some.injEq, Prod.mk.injEq] at hadv
    obtain ⟨rfl, rfl⟩ := hadv
    rw [newRows_self]
    exact .failed true _ _ (by simp)
  | none =>
    simp only [hfail, Option.some.injEq, Prod.mk.injEq] at hadv
    obtain ⟨rfl, rfl⟩ := hadv
    have hsame : newRows s.world (s.world.putObject file
        (generateMinioKey env file.originalname)) = [] := newRows_self s.world
    rw [hsame, decide_eq_true rfl]
    exact .stored _

/-- The call of the table, after that of the storage. -/
theorem fileTask_create {env : Env} {w : World} {pc : Pc} {minioKey : String}
    (hpc : s.pc? j = some (.processCreate user file minioKey))
    (hadv : advance cfg s.world env (.processCreate user file minioKey) = some (w, pc)) :
    FileTask cfg user file true ⟨true, pc⟩ (newRows s.world w) ([true] ++ outcome s j env) := by
  simp only [outcome, hpc]
  simp only [advance, World.create] at hadv
  cases hfail : env.fail with
  | some message =>
    simp only [hfail, Option.some.injEq, Prod.mk.injEq] at hadv
    obtain ⟨rfl, rfl⟩ := hadv
    rw [newRows_self]
    exact .failed true _ _ (by simp)
  | none =>
    cases hdocs : s.world.docs.create (newDoc cfg env user file minioKey) with
    | none =>
      have htaken : env.id ∈ s.world.docs.rows.map KnowledgeDoc.id :=
        Table.create_eq_none.1 hdocs
      simp only [hfail, hdocs, Option.some.injEq, Prod.mk.injEq] at hadv
      obtain ⟨rfl, rfl⟩ := hadv
      rw [newRows_self]
      exact .failed true _ _ (by simp [htaken])
    | some docs =>
      have hnew : env.id ∉ s.world.docs.rows.map KnowledgeDoc.id :=
        (Table.create_eq_some.1 hdocs).1
      simp only [hfail, hdocs, Option.some.injEq, Prod.mk.injEq] at hadv
      obtain ⟨rfl, rfl⟩ := hadv
      rw [newRows_create hdocs, decide_eq_true ⟨rfl, hnew⟩]
      exact .created true env minioKey

theorem FileTask.called (h : FileTask cfg user file added op rows outcomes)
    (hcall : op.pc.Calling) (hpc : s.pc? j = some op.pc) {env : Env} {w : World} {pc : Pc}
    (hadv : advance cfg s.world env op.pc = some (w, pc)) :
    FileTask cfg user file added { op with pc := pc } (rows ++ newRows s.world w)
      (outcomes ++ outcome s j env) := by
  cases h with
  | refused => exact hcall.elim
  | added => exact fileTask_put hpc hadv
  | stored minioKey => exact fileTask_create hpc hadv
  | created queued env minioKey => exact hcall.elim
  | failed queued e outcomes hfalse => exact hcall.elim

/-- A step of the server, seen by the task: one of its own, or it stays where it is. -/
theorem FileTask.step (h : FileTask cfg user file added op rows outcomes)
    (hop : s.ops[j]? = some op) (hs : Knowledge.step cfg s e = some t) :
    ∃ op', t.ops[j]? = some op' ∧ FileTask cfg user file added op'
      (rows ++ createdIn j (s, e, t)) (outcomes ++ outcomeIn j (s, e, t)) := by
  by_cases he : e.Of j
  · cases e with
    | request r => exact he.elim
    | resume i env =>
      obtain rfl : i = j := he
      have hres := resumes_of_step hop hs
      have hi := (List.getElem?_eq_some_iff.1 hop).1
      have hpc := s.pc?_of_getElem? hop
      simp only [createdIn, outcomeIn, if_true]
      rcases hres.task h.task with ⟨w, pc, hcall, hadv, rfl⟩ | ⟨result, hdone, hqueued, rfl⟩
      · exact ⟨_, List.getElem?_set_self hi, h.called hcall hpc hadv⟩
      · refine ⟨_, List.getElem?_set_self hi, ?_⟩
        have hsame : newRows s.world (s.release i op).world = [] := newRows_self s.world
        have hnone : outcome s i env = [] := by simp only [outcome, hpc, hdone]
        rw [hsame, hnone, List.append_nil, List.append_nil]
        cases h with
        | refused => cases hqueued
        | added => cases hdone
        | stored minioKey => cases hdone
        | created queued env minioKey => exact .created false env minioKey
        | failed queued e outcomes hfalse => exact .failed false e outcomes hfalse
  · refine ⟨op, ops_of_not_of hs he hop, ?_⟩
    rw [createdIn_of_not_of he, outcomeIn_of_not_of he, List.append_nil, List.append_nil]
    exact h

end Task

/-! ### All tasks of an upload -/

/-- The task of a file when it is added, if there is room for it, and when there is none. -/
def fileOp (user : User) (file : MulterFile) (room : Bool) : Op :=
  if room then ⟨true, .processPut user file⟩ else ⟨false, .throw (.Error queueFullMessage)⟩

/-- There is room for the file at position `k` of an upload that starts with the server in `a`. -/
def Sys.room (a : Sys) (k : ℕ) : Bool := a.queue.load + k < CONCURRENCY + MAX_PENDING

theorem FileTask.fileOp (cfg : Config) (user : User) (file : MulterFile) (room : Bool) :
    FileTask cfg user file room (fileOp user file room) [] [] := by
  cases room with
  | true => exact .added
  | false => exact .refused

/-- The task that `add` adds, and the room after it. -/
theorem add_task {s : Sys} (h : s.queue.Steady limits) (user : User) (file : MulterFile) :
    (s.add (.processPut user file)).ops = s.ops ++ [fileOp user file (s.room 0)] ∧
      (s.add (.processPut user file)).queue.Steady limits ∧
      ∀ k, (s.add (.processPut user file)).room k = s.room (k + 1) := by
  have hload : s.queue.load ≤ CONCURRENCY + MAX_PENDING := h.load_le
  rcases add_cases h (.processPut user file) with ⟨hfull, hadd⟩ | ⟨queue, hq, hq', hadd⟩
  · have hnone : ∀ k, s.room k = false := fun k => decide_eq_false (by omega)
    rw [hadd, hnone 0]
    exact ⟨rfl, h, fun k => (hnone k).trans (hnone (k + 1)).symm⟩
  · have hle : queue.load ≤ CONCURRENCY + MAX_PENDING := hq.load_le
    have hroom : s.room 0 = true := decide_eq_true (by omega)
    rw [hadd, hroom]
    refine ⟨rfl, hq, fun k => decide_eq_decide.2 ?_⟩
    simp only [hq']
    omega

/-- An upload adds its tasks in a row: those for which there is room next to all before them. -/
theorem addAll_task {s : Sys} (h : s.queue.Steady limits) (user : User) (files : List MulterFile)
    {k : ℕ} {file : MulterFile} (hk : files[k]? = some file) :
    (s.addAll user files).ops[s.ops.length + k]? = some (fileOp user file (s.room k)) := by
  induction files generalizing s k with
  | nil => cases hk
  | cons file₀ files ih =>
    obtain ⟨hops, hsteady, hroom⟩ := add_task h user file₀
    rw [Sys.addAll]
    cases k with
    | zero =>
      obtain rfl := Option.some.inj hk
      obtain ⟨tasks, htasks, -⟩ := addAll_ops (s := s.add (.processPut user file₀)) user files
      rw [htasks, hops, List.append_assoc, Nat.add_zero, List.getElem?_append_right (Nat.le_refl _),
        Nat.sub_self]
      rfl
    | succ k =>
      have hlen : s.ops.length + (k + 1) = (s.add (.processPut user file₀)).ops.length + k := by
        rw [hops, List.length_append, List.length_singleton]
        omega
      rw [hlen, ih hsteady hk, hroom]

/-- What the tasks of `files` have done after the steps `l`, when they were added in `a`. -/
def FileTasks (cfg : Config) (user : User) (files : List MulterFile) (a : Sys)
    (l : List (Sys × Event × Sys)) (s : Sys) : Prop :=
  ∀ k file, files[k]? = some file → ∃ op, s.ops[a.ops.length + k]? = some op ∧
    FileTask cfg user file (a.room k) op (createdBy (a.ops.length + k) l)
      (outcomesOf (a.ops.length + k) l)

section Tasks

variable {cfg : Config} {user : User} {files : List MulterFile} {a s t : Sys} {e : Event}
  {l : List (Sys × Event × Sys)}

theorem FileTasks.step (h : FileTasks cfg user files a l s) (hs : Knowledge.step cfg s e = some t) :
    FileTasks cfg user files a (l ++ [(s, e, t)]) t := by
  intro k file hk
  obtain ⟨op, hop, htask⟩ := h k file hk
  rw [createdBy_concat, outcomesOf_concat]
  exact htask.step hop hs

/-- The `Promise.all` of the tasks has the rows that they created, in the order of the files. -/
theorem joined_eq {tasks : List ℕ} {rows : ℕ → List KnowledgeDoc}
    (htasks : ∀ j ∈ tasks, ∃ op file added outcomes, s.ops[j]? = some op ∧
      FileTask cfg user file added op (rows j) outcomes)
    {result : List (Option KnowledgeDoc)} (h : s.joined tasks = some result) :
    result.filterMap id = tasks.flatMap rows ∧ ∀ j ∈ tasks, s.Settled j := by
  unfold Sys.joined at h
  induction tasks generalizing result with
  | nil =>
    cases h
    exact ⟨rfl, by simp⟩
  | cons j tasks ih =>
    rw [List.mapM_cons] at h
    obtain ⟨v, hv, h⟩ := Option.bind_eq_some_iff.1 h
    obtain ⟨vs, hvs, h⟩ := Option.bind_eq_some_iff.1 h
    cases h
    obtain ⟨op, file, added, outcomes, hop, htask⟩ := htasks j List.mem_cons_self
    rw [hop, Option.bind_some] at hv
    have hrow := htask.value hv
    obtain ⟨hq, result, hpc⟩ := Op.settled_of_value hv
    obtain ⟨hrows, hsettled⟩ := ih (fun i hi => htasks i (List.mem_cons_of_mem _ hi)) hvs
    refine ⟨?_, fun i hi => ?_⟩
    · rw [List.flatMap_cons, ← hrows, ← hrow]
      cases v <;> rfl
    · rcases List.mem_cons.1 hi with rfl | hi
      · exact ⟨op, result, hop, hq, hpc⟩
      · exact hsettled i hi

theorem mem_tasksOf {j : ℕ} :
    j ∈ a.tasksOf files ↔ ∃ k, k < files.length ∧ j = a.ops.length + k := by
  rw [Sys.tasksOf, List.mem_range'_1]
  constructor
  · rintro ⟨hle, hlt⟩
    exact ⟨j - a.ops.length, by omega, by omega⟩
  · rintro ⟨k, hk, rfl⟩
    omega

theorem FileTasks.task (h : FileTasks cfg user files a l s) :
    ∀ j ∈ a.tasksOf files, ∃ op file added outcomes, s.ops[j]? = some op ∧
      FileTask cfg user file added op (createdBy j l) outcomes := by
  intro j hj
  obtain ⟨k, hk, rfl⟩ := mem_tasksOf.1 hj
  obtain ⟨op, hop, htask⟩ := h k files[k] (List.getElem?_eq_getElem hk)
  exact ⟨op, files[k], a.room k, _, hop, htask⟩

/-- Settled tasks create no more rows. -/
theorem createdBy_settled {tasks : List ℕ} (hsettled : ∀ j ∈ tasks, s.Settled j)
    (hs : step cfg s e = some t) :
    (tasks.flatMap fun j => createdBy j (l ++ [(s, e, t)])) =
      tasks.flatMap fun j => createdBy j l := by
  refine List.flatMap_congr fun j hj => ?_
  rw [createdBy_concat, createdIn_of_not_of ((hsettled j hj).not_of hs), List.append_nil]

end Tasks

/-! ### The upload -/

/-- Where the upload `i` is, with what its tasks have done after the steps `l`. -/
inductive Batch (cfg : Config) (user : User) (files : List MulterFile) (i : ℕ)
    (l : List (Sys × Event × Sys)) (s : Sys) : Pc → Prop
  | counting (hnone : admission i l = none) : Batch cfg user files i l s (.uploadCount user files)
  | counted (n : ℕ) (hnone : admission i l = none)
      (hquota : n + files.length ≤ PERSONAL_MAX_UPLOADS) :
      Batch cfg user files i l s (.uploadAdmit user files n)
  | joining (a : Sys) (ha : admission i l = some a) (htasks : FileTasks cfg user files a l s) :
      Batch cfg user files i l s (.uploadJoin user (a.tasksOf files))
  | joined (a : Sys) (ha : admission i l = some a) (htasks : FileTasks cfg user files a l s)
      (hsettled : ∀ j ∈ a.tasksOf files, s.Settled j) :
      Batch cfg user files i l s
        (.formatCount user ((a.tasksOf files).flatMap fun j => createdBy j l))
  | answered (a : Sys) (ha : admission i l = some a) (htasks : FileTasks cfg user files a l s)
      (hsettled : ∀ j ∈ a.tasksOf files, s.Settled j) (b t : Sys) (env : Env)
      (hb : (b, .resume i env, t) ∈ l) (hcounted : ∀ j ∈ a.tasksOf files, b.Settled j) :
      Batch cfg user files i l s (.done (.ok (.response
        (formatResponse ((a.tasksOf files).flatMap fun j => createdBy j l)
          (b.world.count user.id)))))

/-- The steps that are left to an upload. -/
def Pc.stage : Pc → ℕ
  | .uploadCount _ _ => 4
  | .uploadAdmit _ _ _ => 3
  | .uploadJoin _ _ => 2
  | .formatCount _ _ => 1
  | _ => 0

section Upload

variable {cfg : Config} {user : User} {files : List MulterFile} {i : ℕ} {s t : Sys} {e : Event}
  {l : List (Sys × Event × Sys)} {pc : Pc}

/-- A step of another request leaves the upload where it is. -/
theorem Batch.step (h : Batch cfg user files i l s pc) (hs : Knowledge.step cfg s e = some t)
    (he : ¬ e.Of i) : Batch cfg user files i (l ++ [(s, e, t)]) t pc := by
  have hadm : admission i (l ++ [(s, e, t)]) = admission i l := by
    rw [admission_concat, admissionIn_of_not_of he, Option.or_none]
  cases h with
  | counting hnone => exact .counting (hadm.trans hnone)
  | counted n hnone hquota => exact .counted n (hadm.trans hnone) hquota
  | joining a ha htasks => exact .joining a (hadm.trans ha) (htasks.step hs)
  | joined a ha htasks hsettled =>
    rw [← createdBy_settled hsettled hs]
    exact .joined a (hadm.trans ha) (htasks.step hs) fun j hj => (hsettled j hj).step hs
  | answered a ha htasks hsettled b t' env hb hcounted =>
    rw [← createdBy_settled hsettled hs]
    exact .answered a (hadm.trans ha) (htasks.step hs) (fun j hj => (hsettled j hj).step hs) b t' env
      (List.mem_append_left _ hb) hcounted

/-! Its own steps. -/

theorem count_step {env : Env} (hop : s.ops[i]? = some ⟨false, .uploadCount user files⟩)
    (hs : step cfg s (.resume i env) = some t) (hfail : env.fail = none) :
    t = s.setPc i ⟨false, .uploadCount user files⟩
      (.uploadAdmit user files (s.world.count user.id)) := by
  obtain ⟨w, pc, hadv, rfl⟩ := called_of_step hop trivial hs
  simp only [advance, hfail, Option.some.injEq, Prod.mk.injEq] at hadv
  obtain ⟨rfl, rfl⟩ := hadv
  rfl

theorem admit_step {env : Env} {n : ℕ} (hop : s.ops[i]? = some ⟨false, .uploadAdmit user files n⟩)
    (hs : step cfg s (.resume i env) = some t) (hquota : n + files.length ≤ PERSONAL_MAX_UPLOADS) :
    t = (s.addAll user files).setPc i ⟨false, .uploadAdmit user files n⟩
      (.uploadJoin user (s.tasksOf files)) := by
  cases resumes_of_step hop hs with
  | accepted user' files' n' hpc =>
    cases hpc
    exact if_neg (Nat.not_lt.2 hquota)
  | joined user' tasks result hpc => cases hpc
  | released result hpc => cases hpc
  | called w pc hcall => exact hcall.elim

theorem join_step {env : Env} {tasks : List ℕ}
    (hop : s.ops[i]? = some ⟨false, .uploadJoin user tasks⟩)
    (hs : step cfg s (.resume i env) = some t) :
    ∃ result, s.joined tasks = some result ∧
      t = s.setPc i ⟨false, .uploadJoin user tasks⟩ (.formatCount user (result.filterMap id)) := by
  cases resumes_of_step hop hs with
  | accepted user' files' n' hpc => cases hpc
  | joined user' tasks' result hpc hresult =>
    cases hpc
    exact ⟨result, hresult, rfl⟩
  | released result hpc => cases hpc
  | called w pc hcall => exact hcall.elim

theorem format_step {env : Env} {docs : List KnowledgeDoc}
    (hop : s.ops[i]? = some ⟨false, .formatCount user docs⟩)
    (hs : step cfg s (.resume i env) = some t) (hfail : env.fail = none) :
    t = s.setPc i ⟨false, .formatCount user docs⟩
      (.done (.ok (.response (formatResponse docs (s.world.count user.id))))) := by
  obtain ⟨w, pc, hadv, rfl⟩ := called_of_step hop trivial hs
  simp only [advance, hfail, Option.some.injEq, Prod.mk.injEq] at hadv
  obtain ⟨rfl, rfl⟩ := hadv
  rfl

/-- The tasks as they are added. -/
theorem fileTasks_added (hsteady : s.queue.Steady limits)
    (hfresh : ∀ j, s.ops.length ≤ j → createdBy j l = [] ∧ outcomesOf j l = [])
    (hi : i < s.ops.length) (env : Env) (op : Op) (pc : Pc)
    (ht : t = (s.addAll user files).setPc i op pc) :
    FileTasks cfg user files s (l ++ [(s, .resume i env, t)]) t := by
  intro k file hk
  refine ⟨fileOp user file (s.room k), ?_, ?_⟩
  · rw [ht, Sys.setPc, List.getElem?_set_ne (by omega)]
    exact addAll_task hsteady user files hk
  · obtain ⟨hcreated, houtcomes⟩ := hfresh (s.ops.length + k) (by omega)
    have he : ¬ Event.Of (s.ops.length + k) (.resume i env) := by
      show ¬ i = s.ops.length + k
      omega
    rw [createdBy_concat, outcomesOf_concat, hcreated, houtcomes, createdIn_of_not_of he,
      outcomeIn_of_not_of he]
    exact .fileOp cfg user file (s.room k)

/-- Its own step brings an upload nearer to its answer. -/
theorem Batch.own_step (h : Batch cfg user files i l s pc) (hsteady : s.queue.Steady limits)
    (hfresh : ∀ j, s.ops.length ≤ j → createdBy j l = [] ∧ outcomesOf j l = [])
    (hop : s.ops[i]? = some ⟨false, pc⟩) {env : Env}
    (hcounts : Counts user files i s (.resume i env))
    (hs : Knowledge.step cfg s (.resume i env) = some t) :
    ∃ pc', t.ops[i]? = some ⟨false, pc'⟩ ∧ t.world = s.world ∧ pc'.stage < pc.stage ∧
      Batch cfg user files i (l ++ [(s, .resume i env, t)]) t pc' := by
  have hi := (List.getElem?_eq_some_iff.1 hop).1
  have hpc := s.pc?_of_getElem? hop
  have hcounts := hcounts rfl pc hpc
  have hadm : admission i (l ++ [(s, .resume i env, t)]) = (admission i l).or (adding s i) := by
    rw [admission_concat]
    simp only [admissionIn, if_true]
  cases h with
  | counting hnone =>
    simp only [adding, hpc, hnone, Option.or_none] at hadm
    obtain rfl := count_step hop hs hcounts.1
    exact ⟨_, List.getElem?_set_self hi, rfl, by simp [Pc.stage], .counted _ hadm hcounts.2⟩
  | counted n hnone hquota =>
    simp only [adding, hpc, hnone, Option.none_or] at hadm
    have ht := admit_step hop hs hquota
    obtain ⟨tasks, htasks, -⟩ := addAll_ops (s := s) user files
    have hi' : i < (s.addAll user files).ops.length := by
      rw [htasks, List.length_append]
      omega
    refine ⟨.uploadJoin user (s.tasksOf files), ?_, ?_, by simp [Pc.stage],
      .joining s hadm (fileTasks_added hsteady hfresh hi env _ _ ht)⟩
    · rw [ht]
      exact List.getElem?_set_self hi'
    · rw [ht]
      exact addAll_world user files
  | joining a ha htasks =>
    simp only [ha, Option.some_or] at hadm
    obtain ⟨result, hresult, ht⟩ := join_step hop hs
    obtain ⟨hrows, hsettled⟩ := joined_eq htasks.task hresult
    rw [hrows, ← createdBy_settled hsettled hs] at ht
    refine ⟨_, ?_, by rw [ht]; rfl, ?_,
      .joined a hadm (htasks.step hs) fun j hj => (hsettled j hj).step hs⟩
    · rw [congrArg Sys.ops ht]
      exact List.getElem?_set_self hi
    · simp [Pc.stage]
  | joined a ha htasks hsettled =>
    simp only [ha, Option.some_or] at hadm
    have ht := format_step hop hs hcounts
    rw [← createdBy_settled hsettled hs] at ht
    refine ⟨_, ?_, by rw [ht]; rfl, ?_,
      .answered a hadm (htasks.step hs) (fun j hj => (hsettled j hj).step hs) s t env
        (List.mem_append_right _ (List.mem_singleton_self _)) hsettled⟩
    · rw [congrArg Sys.ops ht]
      exact List.getElem?_set_self hi
    · simp [Pc.stage]
  | answered a ha htasks hsettled =>
    have hdone : s.Settled i := ⟨_, _, hop, rfl, rfl⟩
    exact absurd rfl (hdone.not_of hs)

/-- All that is kept while the upload goes on. -/
structure BatchInv (cfg : Config) (w : World) (user : User) (files : List MulterFile) (i : ℕ)
    (l : List (Sys × Event × Sys)) (s : Sys) : Prop where
  reachable : Reachable (step cfg) (Sys.boot w) s
  batch : ∃ pc, s.ops[i]? = some ⟨false, pc⟩ ∧ Batch cfg user files i l s pc
  fresh : ∀ j, s.ops.length ≤ j → createdBy j l = [] ∧ outcomesOf j l = []
  no_other : createdBy i l = []

theorem BatchInv.batch_of {w : World} (h : BatchInv cfg w user files i l s)
    (hop : s.ops[i]? = some ⟨false, pc⟩) : Batch cfg user files i l s pc := by
  obtain ⟨pc', hop', hbatch⟩ := h.batch
  rw [hop] at hop'
  cases hop'
  exact hbatch

/-- A request that has not come makes no step. -/
theorem lt_of_step_of {j : ℕ} (hs : step cfg s e = some t) (he : e.Of j) : j < s.ops.length := by
  cases e with
  | request r => exact he.elim
  | resume i env =>
    obtain rfl : i = j := he
    obtain ⟨-, op, hop, -⟩ := step_resume_iff.1 hs
    exact (List.getElem?_eq_some_iff.1 hop).1

theorem length_le_of_step (hs : step cfg s e = some t) : s.ops.length ≤ t.ops.length := by
  rcases step_cases hs with ⟨r, op, -, -, hops, -⟩ | ⟨i, env, op, -, -, hcases⟩
  · rw [hops, List.length_append]
    omega
  · rcases hcases with ⟨w, pc, -, -, hops⟩ | ⟨op', -, -, hops⟩ |
      ⟨user, files, n, tasks, ids, -, -, -, -, -, hops⟩
    · rw [hops, List.length_set]
    · rw [hops, List.length_set]
    · rw [hops, List.length_set, List.length_append]
      omega

/-- **Each step of the server keeps it.** -/
theorem batch_step {w : World} (h : BatchInv cfg w user files i l s)
    (hcounts : Counts user files i s e) (hs : step cfg s e = some t) :
    BatchInv cfg w user files i (l ++ [(s, e, t)]) t := by
  obtain ⟨pc, hop, hbatch⟩ := h.batch
  have hfresh : ∀ j, t.ops.length ≤ j →
      createdBy j (l ++ [(s, e, t)]) = [] ∧ outcomesOf j (l ++ [(s, e, t)]) = [] := by
    intro j hj
    have hle := length_le_of_step hs
    have he : ¬ e.Of j := fun he => by
      have hlt := lt_of_step_of hs he
      omega
    obtain ⟨hcreated, houtcomes⟩ := h.fresh j (by omega)
    rw [createdBy_concat, outcomesOf_concat, hcreated, houtcomes, createdIn_of_not_of he,
      outcomeIn_of_not_of he]
    exact ⟨rfl, rfl⟩
  by_cases he : e.Of i
  · cases e with
    | request r => exact he.elim
    | resume j env =>
      obtain rfl : j = i := he
      obtain ⟨pc', hop', hworld, -, hbatch'⟩ :=
        hbatch.own_step (steady_of_reachable h.reachable) h.fresh hop hcounts hs
      refine ⟨h.reachable.tail hs, ⟨pc', hop', hbatch'⟩, hfresh, ?_⟩
      rw [createdBy_concat, h.no_other, createdIn, if_pos rfl, hworld, newRows_self]
      rfl
  · refine ⟨h.reachable.tail hs, ⟨pc, ops_of_not_of hs he hop, hbatch.step hs he⟩, hfresh, ?_⟩
    rw [createdBy_concat, h.no_other, createdIn_of_not_of he]
    rfl

/-- What can be read off. -/
theorem BatchInv.reports {w : World} (h : BatchInv cfg w user files i l s) :
    Reports cfg user files i l s := by
  obtain ⟨pc, hop, hbatch⟩ := h.batch
  have htasks : ∀ a, admission i l = some a → FileTasks cfg user files a l s := by
    intro a ha
    cases hbatch with
    | counting hnone => rw [ha] at hnone; cases hnone
    | counted n hnone hquota => rw [ha] at hnone; cases hnone
    | joining a' ha' htasks => rw [ha] at ha'; cases ha'; exact htasks
    | joined a' ha' htasks hsettled => rw [ha] at ha'; cases ha'; exact htasks
    | answered a' ha' htasks hsettled => rw [ha] at ha'; cases ha'; exact htasks
  refine ⟨fun a ha k file hk => ?_, fun a ha k hk => ?_, h.no_other, fun result hresult => ?_⟩
  · obtain ⟨op, -, htask⟩ := htasks a ha k file hk
    exact htask.one_row
  · obtain ⟨op, -, htask⟩ := htasks a ha k files[k] (List.getElem?_eq_getElem hk)
    rw [htask.rows_ne_nil_iff, Sys.room, decide_eq_true_eq]
  · rw [s.pc?_of_getElem? hop] at hresult
    obtain rfl := Option.some.inj hresult
    cases hbatch with
    | answered a ha htasks hsettled b t env hb hcounted =>
      exact ⟨a, b, env, t, _, ha, hb, hcounted, rfl, formatResponse_tells _ user b.world⟩

end Upload

/-! ### Executions -/

section Executions

variable {cfg : Config} {w : World} {user : User} {files : List MulterFile} {i : ℕ}
  {x : Execution (Knowledge.step cfg)}

/-- An upload that has not been answered can make its next step, once its tasks have settled. -/
theorem Batch.enabled {l : List (Sys × Event × Sys)} {s : Sys} {pc : Pc}
    (h : Batch cfg user files i l s pc) (hr : Reachable (Knowledge.step cfg) (Sys.boot w) s)
    (hop : s.ops[i]? = some ⟨false, pc⟩) (hstage : 0 < pc.stage)
    (hsettled : ∀ tasks, pc = .uploadJoin user tasks → ∀ j ∈ tasks, s.Settled j) :
    Enabled (Knowledge.step cfg) (Event.Of i) s := by
  have hwait := not_waiting hr hop rfl
  cases h with
  | counting hnone =>
    exact ⟨.resume i {}, _, rfl, step_resume_iff.2 ⟨hwait, _, hop, .called _ _ trivial rfl⟩⟩
  | counted n hnone hquota =>
    exact ⟨.resume i {}, _, rfl, step_resume_iff.2 ⟨hwait, _, hop, .accepted user files n rfl⟩⟩
  | joining a ha htasks =>
    obtain ⟨values, hvalues⟩ := exists_joined (hsettled _ rfl)
    exact ⟨.resume i {}, _, rfl,
      step_resume_iff.2 ⟨hwait, _, hop, .joined user _ values rfl hvalues⟩⟩
  | joined a ha htasks hsettled' =>
    exact ⟨.resume i {}, _, rfl, step_resume_iff.2 ⟨hwait, _, hop, .called _ _ trivial rfl⟩⟩
  | answered a ha htasks hsettled' => exact absurd hstage (Nat.lt_irrefl 0)

/-- The tasks of an upload settle in the end. -/
theorem exists_settled (hinv : ∀ n, BatchInv cfg w user files i (x.history n) (x.state n))
    (hfair : Fair x) {n : ℕ} {pc : Pc}
    (hbatch : Batch cfg user files i (x.history n) (x.state n) pc) :
    ∃ n', n ≤ n' ∧ ∀ m, n' ≤ m →
      ∀ tasks, pc = .uploadJoin user tasks → ∀ j ∈ tasks, (x.state m).Settled j := by
  cases hbatch with
  | joining a ha htasks =>
    have hsettles : ∀ j ∈ a.tasksOf files, ∃ m, n ≤ m ∧ (x.state m).Settled j := by
      intro j hj
      obtain ⟨op, file, added, outcomes, hop, htask⟩ := htasks.task j hj
      exact settles (hinv 0).reachable hfair hop htask.done
    obtain ⟨n', hn', hall⟩ :=
      Execution.Stable.exists_forall (G := fun j (s : Sys) => s.Settled j) settled_stable _ hsettles
    refine ⟨n', hn', fun m hm tasks htasks j hj => ?_⟩
    cases htasks
    exact (settled_stable j).of_le (hall j hj) hm
  | _ =>
    refine ⟨n, Nat.le_refl n, fun m hm tasks htasks => ?_⟩
    cases htasks

/-- An upload that has not been answered makes its next step. -/
theorem exists_own_step (hinv : ∀ n, BatchInv cfg w user files i (x.history n) (x.state n))
    (hfair : Fair x) {n : ℕ} {pc : Pc} (hop : (x.state n).ops[i]? = some ⟨false, pc⟩)
    (hpos : 0 < pc.stage) :
    ∃ m e, n ≤ m ∧ e.Of i ∧ x.label m = some e ∧
      (x.state m).ops[i]? = some ⟨false, pc⟩ := by
  obtain ⟨n', hn', hsettled⟩ := exists_settled hinv hfair ((hinv n).batch_of hop)
  have hen : ∀ m, n' ≤ m → (x.state m).ops[i]? = some ⟨false, pc⟩ →
      Enabled (step cfg) (Event.Of i) (x.state m) := fun m hm hopm =>
    ((hinv m).batch_of hopm).enabled (hinv m).reachable hopm hpos (hsettled m hm)
  exact Execution.WeaklyFair.exists_step (hfair i) (P := fun s => s.ops[i]? = some ⟨false, pc⟩)
    (fun s e t hs he hst => ops_of_not_of hst he hs) hop ⟨n', hn', hen⟩

/-- **A fair upload is answered**, by induction on the steps that are left to it. -/
theorem exists_answered (hinv : ∀ n, BatchInv cfg w user files i (x.history n) (x.state n))
    (hcounts : x.Meets (Counts user files i)) (hfair : Fair x) :
    ∃ n r, (x.state n).pc? i = some (.done (.ok (.response r))) := by
  let at_stage : ℕ → Sys → Prop := fun k s => ∃ pc, s.ops[i]? = some ⟨false, pc⟩ ∧ pc.stage = k
  have hleads : ∀ k, x.LeadsTo (at_stage k) fun s =>
      ∃ r, s.pc? i = some (.done (.ok (.response r))) := by
    refine Execution.LeadsTo.of_rank fun k n hn => ?_
    obtain ⟨pc, hop, hk⟩ := hn
    rcases Nat.eq_zero_or_pos pc.stage with hzero | hpos
    · refine ⟨n, Nat.le_refl n, Or.inl ?_⟩
      rw [(x.state n).pc?_of_getElem? hop]
      cases (hinv n).batch_of hop with
      | answered a ha htasks hsettled => exact ⟨_, rfl⟩
      | _ => cases hzero
    · obtain ⟨m, e, hm, he, hlabel, hopm⟩ := exists_own_step hinv hfair hop hpos
      cases e with
      | request r => exact he.elim
      | resume j env =>
        obtain rfl : j = i := he
        obtain ⟨pc', hop', -, hlt, -⟩ :=
          ((hinv m).batch_of hopm).own_step (steady_of_reachable (hinv m).reachable)
            (hinv m).fresh hopm (hcounts m _ hlabel) (x.next m _ hlabel)
        exact ⟨m + 1, by omega, Or.inr ⟨pc'.stage, hk ▸ hlt, pc', hop', rfl⟩⟩
  obtain ⟨pc, hop, -⟩ := (hinv 0).batch
  obtain ⟨n, -, r, hr⟩ := hleads pc.stage 0 ⟨pc, hop, rfl⟩
  exact ⟨n, r, hr⟩

end Executions

/-- **An upload reports exactly what it created.** -/
theorem upload_reports {cfg : Config} {w : World} {s : Sys} {user : User} {files : List MulterFile}
    (hs : Reachable (step cfg) (Sys.boot w) s) (x : Execution (step cfg))
    (harrival : step cfg s (.request (.uploadFiles user files)) = some (x.state 0))
    (hcounts : x.Meets (Counts user files s.ops.length)) :
    (∀ n, Reports cfg user files s.ops.length (x.history n) (x.state n)) ∧
      (Fair x → ∃ n r, (x.state n).pc? s.ops.length = some (.done (.ok (.response r)))) := by
  have hreceive : s.spawn (.uploadCount user files) = x.state 0 := Option.some.inj harrival
  have hstart : BatchInv cfg w user files s.ops.length [] (x.state 0) := by
    refine ⟨hs.tail harrival, ⟨.uploadCount user files, ?_, .counting rfl⟩, fun j hj => ⟨rfl, rfl⟩,
      rfl⟩
    rw [← hreceive]
    simp [Sys.spawn]
  have hinv : ∀ n, BatchInv cfg w user files s.ops.length (x.history n) (x.state n) :=
    Execution.invariant_history hcounts (fun l s e t hl hc hst => batch_step hl hc hst) hstart
  exact ⟨fun n => (hinv n).reports, exists_answered hinv hcounts⟩

/-! ### Three files -/

theorem not_enabled_of_value {cfg : Config} {s : Sys} (h : ∀ op ∈ s.ops, op.value.isSome = true)
    (j : ℕ) : ¬ Enabled (step cfg) (Event.Of j) s := by
  rintro ⟨e, t, he, hs⟩
  have hj := List.getElem?_eq_getElem (lt_of_step_of hs he)
  obtain ⟨v, hv⟩ := Option.isSome_iff_exists.1 (h _ (List.mem_of_getElem? hj))
  obtain ⟨hq, result, hpc⟩ := Op.settled_of_value hv
  have hsettled : s.Settled j := ⟨_, result, hj, hq, hpc⟩
  exact hsettled.not_of hs he

def threeFiles : List MulterFile :=
  ["first.txt", "second.txt", "third.txt"].map fun name => { exampleFile with originalname := name }

/-- The storage fails for the first file, and the row of the third comes before that of the
second. -/
def threeFilesRun : List Event :=
  [.resume 0 {}, .resume 0 {}, .resume 2 { uuid := "k2" }, .resume 1 { fail := some "timeout" },
    .resume 3 { uuid := "k3" }, .resume 3 { id := "d3", now := 1 }, .request (.findAll alice),
    .resume 2 { id := "d2", now := 2 }, .resume 2 {}, .resume 4 { fail := some "timeout" },
    .resume 1 {}, .resume 3 {}, .resume 0 {}, .resume 0 {}]

/-- The response with which the request has been answered. -/
def Pc.response? : Pc → Option Response
  | .done (.ok (.response r)) => some r
  | _ => none

/-- What the upload is answered with. -/
def threeFilesResponse : Response where
  uploadedData :=
    [⟨"d2", "second.txt", "second.txt", 2, .UPLOADED, 1, 2⟩,
      ⟨"d3", "third.txt", "third.txt", 2, .UPLOADED, 1, 1⟩]
  total := 2
  canUpload := 8

/-- An execution in which two files of three get through. -/
theorem upload_reports_threeFiles :
    ∃ x : Execution (step exampleConfig),
      step exampleConfig (Sys.boot World.empty) (.request (.uploadFiles alice threeFiles)) =
        some (x.state 0) ∧
      ((x.state threeFilesRun.length).pc? 0).bind Pc.response? = some threeFilesResponse ∧
      (∀ n, Reports exampleConfig alice threeFiles 0 (x.history n) (x.state n)) ∧
      ∃ n r, (x.state n).pc? 0 = some (.done (.ok (.response r))) := by
  let start := (Sys.boot World.empty).spawn (.uploadCount alice threeFiles)
  obtain ⟨t, hrun, hlast⟩ := Option.map_eq_some_iff.1
    (show (run (step exampleConfig) start threeFilesRun).map
        (fun t => (t.ops.all fun op => op.value.isSome, (t.pc? 0).bind Pc.response?)) =
          some (true, some threeFilesResponse) by decide +kernel)
  obtain ⟨hvalue, hpc⟩ := Prod.mk.inj hlast
  have hmeets : Meets (step exampleConfig) (Counts alice threeFiles 0) start threeFilesRun := by
    decide +kernel
  have hfair : Fair (Execution.ofRun hrun) := fun j =>
    Execution.ofRun_weaklyFair hrun (not_enabled_of_value (by simpa using hvalue) j)
  obtain ⟨hreports, hanswered⟩ := upload_reports (w := World.empty) (.refl _)
    (Execution.ofRun hrun) rfl (Execution.ofRun_meets hrun hmeets)
  refine ⟨Execution.ofRun hrun, rfl, ?_, hreports, hanswered hfair⟩
  rw [Execution.ofRun_state hrun (Nat.le_refl _)]
  exact hpc

end ProtostarNest.Knowledge
