import ProtostarNest.Knowledge.Doc

/-!
# The requests of `KnowledgeService` and `AiTaskService`

Each function of the two services is cut at its `await`s.  A control point `Pc` names the call
that a request is about to await, with the local variables that the rest of the function reads;
`advance` makes that call and runs the function up to its next `await`.

* `uploadCount`, `uploadAdmit`, `uploadJoin`: `uploadFiles`, whose steps at the queue are in
  `Knowledge.System`;
* `processPut`, `processCreate`: `processSingleFileUpload`;
* `replaceFind`, `replacePut`, `replaceDeleteOld`, `replaceUpdate`: `replaceFile`;
* `deleteFind`, `deleteObject`, `deleteRow`: `deleteFile`;
* `findAll`, `formatCount`: `findAll` and `formatResponse`;
* `dispatchFind`, `dispatchPush`, `dispatchUpdate`: `dispatchPendingTasks`;
* `webhookUpdate`: `updateDocStatusViaWebhook`.

`Advance` lists what one such step can do; `advance_sound` is the inversion of `advance`, and
`Advance.row` says where the rows of the table after a step come from.
-/

namespace ProtostarNest.Knowledge

inductive Reply
  | doc (doc : KnowledgeDoc)
  | response (r : Response)
  | success
  deriving DecidableEq

inductive Pc
  | uploadCount (user : User) (files : List MulterFile)
  | uploadAdmit (user : User) (files : List MulterFile) (currentCount : ℕ)
  | uploadJoin (user : User) (tasks : List ℕ)
  | processPut (user : User) (file : MulterFile)
  | processCreate (user : User) (file : MulterFile) (minioKey : String)
  | replaceFind (user : User) (id : String) (title : Option String) (file : MulterFile)
  | replacePut (user : User) (title : Option String) (file : MulterFile)
      (existingDoc : KnowledgeDoc)
  | replaceDeleteOld (user : User) (title : Option String) (file : MulterFile)
      (existingDoc : KnowledgeDoc) (minioKey : String)
  | replaceUpdate (user : User) (id : String) (title : Option String) (file : MulterFile)
      (minioKey : String)
  | deleteFind (user : User) (id : String)
  | deleteObject (user : User) (doc : KnowledgeDoc)
  | deleteRow (user : User) (id : String)
  | findAll (user : User)
  | formatCount (user : User) (docs : List KnowledgeDoc)
  | dispatchFind
  | dispatchPush (doc : KnowledgeDoc) (rest : List KnowledgeDoc)
  | dispatchUpdate (doc : KnowledgeDoc) (rest : List KnowledgeDoc)
  | webhookUpdate (dto : RagWebhookDto) (answers : Option Job)
  | done (result : Except Exception Reply)

namespace Pc

/-- The request ends with an exception. -/
def throw (e : Exception) : Pc := .done (.error e)

/-- The head of the loop over the targets. -/
def dispatchNext : List KnowledgeDoc → Pc
  | [] => .done (.ok .success)
  | doc :: rest => .dispatchPush doc rest

/-- The row that the awaited call changes, if it is there. -/
def target : Pc → Option String
  | .replaceUpdate _ id _ _ _ => some id
  | .deleteRow _ id => some id
  | .dispatchUpdate doc _ => some doc.id
  | .webhookUpdate dto _ => some dto.docId
  | _ => none

end Pc

/-- `findMany({ where: { uploaderId }, orderBy: { createdAt: 'desc' } })`. -/
def IsFindAll (w : World) (user : User) (rows : List KnowledgeDoc) : Prop :=
  w.IsAnswer (fun d => d.uploaderId = user.id) (fun a b => b.createdAt ≤ a.createdAt) rows

/-- `findMany({ where: { status: UPLOADED }, orderBy: { createdAt: 'asc' } })`. -/
def IsPending (w : World) (rows : List KnowledgeDoc) : Prop :=
  w.IsAnswer (fun d => d.status = .UPLOADED) (fun a b => a.createdAt ≤ b.createdAt) rows

instance (w : World) (user : User) (rows : List KnowledgeDoc) :
    Decidable (IsFindAll w user rows) :=
  inferInstanceAs (Decidable (w.IsAnswer _ _ rows))

instance (w : World) (rows : List KnowledgeDoc) : Decidable (IsPending w rows) :=
  inferInstanceAs (Decidable (w.IsAnswer _ _ rows))

/-- `take` of the dispatcher. -/
def DISPATCH_TAKE : ℕ := 10

section Advance

variable (cfg : Config) (w : World) (env : Env)

/-- The awaited call of a control point and the code after it. -/
def advance : Pc → Option (World × Pc)
  -- uploadFiles
  | .uploadCount user files =>
      match env.fail with
      | some e => some (w, .throw (.Error e))
      | none => some (w, .uploadAdmit user files (w.count user.id))
  | .uploadAdmit _ _ _ => none
  | .uploadJoin _ _ => none
  -- processSingleFileUpload
  | .processPut user file =>
      let minioKey := generateMinioKey env file.originalname
      match w.uploadFile env file minioKey with
      | .error e => some (w, .throw e)
      | .ok w' => some (w', .processCreate user file minioKey)
  | .processCreate user file minioKey =>
      match w.create env (newDoc cfg env user file minioKey) with
      | .error e => some (w, .throw e)
      | .ok w' => some (w', .done (.ok (.doc (newDoc cfg env user file minioKey))))
  -- replaceFile
  | .replaceFind user id title file =>
      match env.fail with
      | some e => some (w, .throw (.Error e))
      | none =>
          match w.docs.findUnique id with
          | none => some (w, .throw (.NotFoundException "Document not found"))
          | some existingDoc =>
              if existingDoc.uploaderId ≠ user.id then
                some (w, .throw (.ForbiddenException "Unauthorized"))
              else some (w, .replacePut user title file existingDoc)
  | .replacePut user title file existingDoc =>
      let minioKey := generateMinioKey env file.originalname
      match w.uploadFile env file minioKey with
      | .error e => some (w, .throw e)
      | .ok w' => some (w', .replaceDeleteOld user title file existingDoc minioKey)
  | .replaceDeleteOld user title file existingDoc minioKey =>
      match w.deleteFile env existingDoc.minioKey with
      | .error _ => some (w, .replaceUpdate user existingDoc.id title file minioKey)
      | .ok w' => some (w', .replaceUpdate user existingDoc.id title file minioKey)
  | .replaceUpdate user id title file minioKey =>
      match w.update env id (replaceDoc cfg env title file minioKey) (fun _ => rfl)
          (.replaced id minioKey) with
      | .error e => some (w, .throw e)
      | .ok w' => some (w', .findAll user)
  -- deleteFile
  | .deleteFind user id =>
      match env.fail with
      | some e => some (w, .throw (.Error e))
      | none =>
          match w.docs.findUnique id with
          | none => some (w, .throw (.NotFoundException "Document not found"))
          | some doc =>
              if doc.uploaderId ≠ user.id then
                some (w, .throw (.BadRequestException "Unauthorized"))
              else some (w, .deleteObject user doc)
  | .deleteObject user doc =>
      match w.deleteFile env doc.minioKey with
      | .error _ => some (w, .deleteRow user doc.id)
      | .ok w' => some (w', .deleteRow user doc.id)
  | .deleteRow user id =>
      match w.delete env id with
      | .error e => some (w, .throw e)
      | .ok w' => some (w', .findAll user)
  -- findAll, formatResponse
  | .findAll user =>
      match env.fail with
      | some e => some (w, .throw (.Error e))
      | none => if IsFindAll w user env.order then some (w, .formatCount user env.order) else none
  | .formatCount user docs =>
      match env.fail with
      | some e => some (w, .throw (.Error e))
      | none => some (w, .done (.ok (.response (formatResponse docs (w.count user.id)))))
  -- dispatchPendingTasks
  | .dispatchFind =>
      match env.fail with
      | some e => some (w, .throw (.Error e))
      | none =>
          if IsPending w env.order then some (w, .dispatchNext (env.order.take DISPATCH_TAKE))
          else none
  | .dispatchPush doc rest =>
      match w.rpush env doc.job with
      | .error _ => some (w, .dispatchNext rest)
      | .ok w' => some (w', .dispatchUpdate doc rest)
  | .dispatchUpdate doc rest =>
      match w.update env doc.id (processingDoc env) (fun _ => rfl) (.dispatched doc.id) with
      | .error _ => some (w, .dispatchNext rest)
      | .ok w' => some (w', .dispatchNext rest)
  -- updateDocStatusViaWebhook
  | .webhookUpdate dto answers =>
      match metaDataToUpdate env dto with
      | none => some (w, .throw (.BadRequestException "Failed to process webhook"))
      | some metaData =>
          match w.update env dto.docId (webhookDoc env dto metaData) (fun _ => rfl)
              (.webhook dto.docId answers) with
          | .error _ => some (w, .throw (.BadRequestException "Failed to process webhook"))
          | .ok w' => some (w', .done (.ok .success))
  | .done _ => none

/-- What one step of a request can do. The ends of a request that change nothing are one case,
`stop`, except where the change of a row fails. -/
inductive Advance : Pc → World → Pc → Prop
  | stop (pc : Pc) (result : Except Exception Reply) (hpc : pc.target = none) :
      Advance pc w (.done result)
  | counted (user : User) (files : List MulterFile) :
      Advance (.uploadCount user files) w (.uploadAdmit user files (w.count user.id))
  | stored (user : User) (file : MulterFile) (hfail : env.fail = none) :
      Advance (.processPut user file)
        (w.putObject file (generateMinioKey env file.originalname))
        (.processCreate user file (generateMinioKey env file.originalname))
  | created (user : User) (file : MulterFile) (minioKey : String) (docs : Table KnowledgeDoc.id)
      (hfail : env.fail = none)
      (hdocs : w.docs.create (newDoc cfg env user file minioKey) = some docs) :
      Advance (.processCreate user file minioKey) (w.commit docs (.created env.id minioKey))
        (.done (.ok (.doc (newDoc cfg env user file minioKey))))
  | replaceFound (user : User) (title : Option String) (file : MulterFile) (doc : KnowledgeDoc)
      (hdoc : doc ∈ w.docs.rows) (howner : doc.uploaderId = user.id) :
      Advance (.replaceFind user doc.id title file) w (.replacePut user title file doc)
  | replaceStored (user : User) (title : Option String) (file : MulterFile) (doc : KnowledgeDoc)
      (hfail : env.fail = none) :
      Advance (.replacePut user title file doc)
        (w.putObject file (generateMinioKey env file.originalname))
        (.replaceDeleteOld user title file doc (generateMinioKey env file.originalname))
  | oldDeleted (user : User) (title : Option String) (file : MulterFile) (doc : KnowledgeDoc)
      (minioKey : String) (hfail : env.fail = none) :
      Advance (.replaceDeleteOld user title file doc minioKey) (w.removeObject doc.minioKey)
        (.replaceUpdate user doc.id title file minioKey)
  | oldKept (user : User) (title : Option String) (file : MulterFile) (doc : KnowledgeDoc)
      (minioKey : String) (hfail : env.fail ≠ none) :
      Advance (.replaceDeleteOld user title file doc minioKey) w
        (.replaceUpdate user doc.id title file minioKey)
  | replaced (user : User) (id : String) (title : Option String) (file : MulterFile)
      (minioKey : String) (docs : Table KnowledgeDoc.id) (hfail : env.fail = none)
      (hdocs : w.docs.update id (replaceDoc cfg env title file minioKey) (fun _ => rfl) =
        some docs) :
      Advance (.replaceUpdate user id title file minioKey) (w.commit docs (.replaced id minioKey))
        (.findAll user)
  | replaceFailed (user : User) (id : String) (title : Option String) (file : MulterFile)
      (minioKey : String) (e : Exception)
      (hfail : env.fail ≠ none ∨ id ∉ w.docs.rows.map KnowledgeDoc.id) :
      Advance (.replaceUpdate user id title file minioKey) w (.throw e)
  | deleteFound (user : User) (doc : KnowledgeDoc) (hdoc : doc ∈ w.docs.rows)
      (howner : doc.uploaderId = user.id) :
      Advance (.deleteFind user doc.id) w (.deleteObject user doc)
  | objectDeleted (user : User) (doc : KnowledgeDoc) (hfail : env.fail = none) :
      Advance (.deleteObject user doc) (w.removeObject doc.minioKey) (.deleteRow user doc.id)
  | objectKept (user : User) (doc : KnowledgeDoc) (hfail : env.fail ≠ none) :
      Advance (.deleteObject user doc) w (.deleteRow user doc.id)
  | rowDeleted (user : User) (id : String) (docs : Table KnowledgeDoc.id)
      (hfail : env.fail = none) (hdocs : w.docs.delete id = some docs) :
      Advance (.deleteRow user id) (w.commit docs (.deleted id)) (.findAll user)
  | deleteFailed (user : User) (id : String) (e : Exception)
      (hfail : env.fail ≠ none ∨ (∃ v ∈ w.vectors, v.knowledgeDocId = id) ∨
        id ∉ w.docs.rows.map KnowledgeDoc.id) :
      Advance (.deleteRow user id) w (.throw e)
  | listed (user : User) (horder : IsFindAll w user env.order) :
      Advance (.findAll user) w (.formatCount user env.order)
  | selected (horder : IsPending w env.order) :
      Advance .dispatchFind w (.dispatchNext (env.order.take DISPATCH_TAKE))
  | pushed (doc : KnowledgeDoc) (rest : List KnowledgeDoc) (hfail : env.fail = none) :
      Advance (.dispatchPush doc rest) { w with jobs := w.jobs ++ [doc.job] }
        (.dispatchUpdate doc rest)
  | pushFailed (doc : KnowledgeDoc) (rest : List KnowledgeDoc) (hfail : env.fail ≠ none) :
      Advance (.dispatchPush doc rest) w (.dispatchNext rest)
  | marked (doc : KnowledgeDoc) (rest : List KnowledgeDoc) (docs : Table KnowledgeDoc.id)
      (hfail : env.fail = none)
      (hdocs : w.docs.update doc.id (processingDoc env) (fun _ => rfl) = some docs) :
      Advance (.dispatchUpdate doc rest) (w.commit docs (.dispatched doc.id)) (.dispatchNext rest)
  | markFailed (doc : KnowledgeDoc) (rest : List KnowledgeDoc)
      (hfail : env.fail ≠ none ∨ doc.id ∉ w.docs.rows.map KnowledgeDoc.id) :
      Advance (.dispatchUpdate doc rest) w (.dispatchNext rest)
  | answered (dto : RagWebhookDto) (answers : Option Job) (metaData : MetaData)
      (docs : Table KnowledgeDoc.id) (hfail : env.fail = none)
      (hmeta : metaDataToUpdate env dto = some metaData)
      (hdocs : w.docs.update dto.docId (webhookDoc env dto metaData) (fun _ => rfl) =
        some docs) :
      Advance (.webhookUpdate dto answers) (w.commit docs (.webhook dto.docId answers))
        (.done (.ok .success))
  | answerFailed (dto : RagWebhookDto) (answers : Option Job) (e : Exception)
      (hfail : env.fail ≠ none ∨ metaDataToUpdate env dto = none ∨
        dto.docId ∉ w.docs.rows.map KnowledgeDoc.id) :
      Advance (.webhookUpdate dto answers) w (.throw e)

variable {cfg w env} {w' : World} {pc pc' : Pc}

theorem advance_sound (h : advance cfg w env pc = some (w', pc')) :
    Advance cfg w env pc w' pc' := by
  cases pc with
  | uploadCount user files =>
    simp only [advance] at h
    split at h <;> obtain ⟨rfl, rfl⟩ := Prod.mk.inj (Option.some.inj h)
    · exact .stop _ _ rfl
    · exact .counted user files
  | uploadAdmit user files currentCount => cases h
  | uploadJoin user tasks => cases h
  | processPut user file =>
    simp only [advance] at h
    split at h <;> rename_i hput <;> obtain ⟨rfl, rfl⟩ := Prod.mk.inj (Option.some.inj h)
    · exact .stop _ _ rfl
    · obtain ⟨hfail, rfl⟩ := World.uploadFile_ok hput
      exact .stored user file hfail
  | processCreate user file minioKey =>
    simp only [advance] at h
    split at h <;> rename_i hcreate <;> obtain ⟨rfl, rfl⟩ := Prod.mk.inj (Option.some.inj h)
    · exact .stop _ _ rfl
    · obtain ⟨hfail, docs, hdocs, rfl⟩ := World.create_ok hcreate
      exact .created user file minioKey docs hfail hdocs
  | replaceFind user id title file =>
    simp only [advance] at h
    split at h
    · obtain ⟨rfl, rfl⟩ := Prod.mk.inj (Option.some.inj h)
      exact .stop _ _ rfl
    · split at h
      · obtain ⟨rfl, rfl⟩ := Prod.mk.inj (Option.some.inj h)
        exact .stop _ _ rfl
      · rename_i doc hdoc
        obtain ⟨hmem, rfl⟩ := Table.findUnique_eq_some.1 hdoc
        split_ifs at h with howner <;> obtain ⟨rfl, rfl⟩ := Prod.mk.inj (Option.some.inj h)
        · exact .stop _ _ rfl
        · exact .replaceFound user title file doc hmem (not_not.1 howner)
  | replacePut user title file existingDoc =>
    simp only [advance] at h
    split at h <;> rename_i hput <;> obtain ⟨rfl, rfl⟩ := Prod.mk.inj (Option.some.inj h)
    · exact .stop _ _ rfl
    · obtain ⟨hfail, rfl⟩ := World.uploadFile_ok hput
      exact .replaceStored user title file existingDoc hfail
  | replaceDeleteOld user title file existingDoc minioKey =>
    simp only [advance] at h
    split at h <;> rename_i hdel <;> obtain ⟨rfl, rfl⟩ := Prod.mk.inj (Option.some.inj h)
    · exact .oldKept user title file existingDoc minioKey (World.deleteFile_error hdel)
    · obtain ⟨hfail, rfl⟩ := World.deleteFile_ok hdel
      exact .oldDeleted user title file existingDoc minioKey hfail
  | replaceUpdate user id title file minioKey =>
    simp only [advance] at h
    split at h <;> rename_i hupd <;> obtain ⟨rfl, rfl⟩ := Prod.mk.inj (Option.some.inj h)
    · exact .replaceFailed user id title file minioKey _ (World.update_error hupd)
    · obtain ⟨hfail, docs, hdocs, rfl⟩ := World.update_ok hupd
      exact .replaced user id title file minioKey docs hfail hdocs
  | deleteFind user id =>
    simp only [advance] at h
    split at h
    · obtain ⟨rfl, rfl⟩ := Prod.mk.inj (Option.some.inj h)
      exact .stop _ _ rfl
    · split at h
      · obtain ⟨rfl, rfl⟩ := Prod.mk.inj (Option.some.inj h)
        exact .stop _ _ rfl
      · rename_i doc hdoc
        obtain ⟨hmem, rfl⟩ := Table.findUnique_eq_some.1 hdoc
        split_ifs at h with howner <;> obtain ⟨rfl, rfl⟩ := Prod.mk.inj (Option.some.inj h)
        · exact .stop _ _ rfl
        · exact .deleteFound user doc hmem (not_not.1 howner)
  | deleteObject user doc =>
    simp only [advance] at h
    split at h <;> rename_i hdel <;> obtain ⟨rfl, rfl⟩ := Prod.mk.inj (Option.some.inj h)
    · exact .objectKept user doc (World.deleteFile_error hdel)
    · obtain ⟨hfail, rfl⟩ := World.deleteFile_ok hdel
      exact .objectDeleted user doc hfail
  | deleteRow user id =>
    simp only [advance] at h
    split at h <;> rename_i hdel <;> obtain ⟨rfl, rfl⟩ := Prod.mk.inj (Option.some.inj h)
    · exact .deleteFailed user id _ (World.delete_error hdel)
    · obtain ⟨hfail, docs, hdocs, rfl⟩ := World.delete_ok hdel
      exact .rowDeleted user id docs hfail hdocs
  | findAll user =>
    simp only [advance] at h
    split at h
    · obtain ⟨rfl, rfl⟩ := Prod.mk.inj (Option.some.inj h)
      exact .stop _ _ rfl
    · split_ifs at h with horder
      obtain ⟨rfl, rfl⟩ := Prod.mk.inj (Option.some.inj h)
      exact .listed user horder
  | formatCount user docs =>
    simp only [advance] at h
    split at h <;> obtain ⟨rfl, rfl⟩ := Prod.mk.inj (Option.some.inj h)
    · exact .stop _ _ rfl
    · exact .stop _ _ rfl
  | dispatchFind =>
    simp only [advance] at h
    split at h
    · obtain ⟨rfl, rfl⟩ := Prod.mk.inj (Option.some.inj h)
      exact .stop _ _ rfl
    · split_ifs at h with horder
      obtain ⟨rfl, rfl⟩ := Prod.mk.inj (Option.some.inj h)
      exact .selected horder
  | dispatchPush doc rest =>
    simp only [advance] at h
    split at h <;> rename_i hpush <;> obtain ⟨rfl, rfl⟩ := Prod.mk.inj (Option.some.inj h)
    · exact .pushFailed doc rest (World.rpush_error hpush)
    · obtain ⟨hfail, rfl⟩ := World.rpush_ok hpush
      exact .pushed doc rest hfail
  | dispatchUpdate doc rest =>
    simp only [advance] at h
    split at h <;> rename_i hupd <;> obtain ⟨rfl, rfl⟩ := Prod.mk.inj (Option.some.inj h)
    · exact .markFailed doc rest (World.update_error hupd)
    · obtain ⟨hfail, docs, hdocs, rfl⟩ := World.update_ok hupd
      exact .marked doc rest docs hfail hdocs
  | webhookUpdate dto answers =>
    simp only [advance] at h
    split at h
    · rename_i hmeta
      obtain ⟨rfl, rfl⟩ := Prod.mk.inj (Option.some.inj h)
      exact .answerFailed dto answers _ (Or.inr (Or.inl hmeta))
    · rename_i metaData hmeta
      split at h <;> rename_i hupd <;> obtain ⟨rfl, rfl⟩ := Prod.mk.inj (Option.some.inj h)
      · exact .answerFailed dto answers _ ((World.update_error hupd).imp_right Or.inr)
      · obtain ⟨hfail, docs, hdocs, rfl⟩ := World.update_ok hupd
        exact .answered dto answers metaData docs hfail hmeta hdocs
  | done result => cases h

/-! ### Rows and jobs -/

/-- Where a row comes from that is in the table after a step. -/
inductive RowCase (cfg : Config) (w : World) (env : Env) (w' : World) : Pc → KnowledgeDoc → Prop
  | same (pc : Pc) (d : KnowledgeDoc) (hd : d ∈ w.docs.rows) (hlog : w'.log d.id = w.log d.id) :
      RowCase cfg w env w' pc d
  | created (user : User) (file : MulterFile) (minioKey : String) (hfail : env.fail = none)
      (hlog : w'.log env.id = .created env.id minioKey :: w.log env.id) :
      RowCase cfg w env w' (.processCreate user file minioKey) (newDoc cfg env user file minioKey)
  | replaced (user : User) (title : Option String) (file : MulterFile) (minioKey : String)
      (d : KnowledgeDoc) (hfail : env.fail = none) (hd : d ∈ w.docs.rows)
      (hlog : w'.log d.id = .replaced d.id minioKey :: w.log d.id) :
      RowCase cfg w env w' (.replaceUpdate user d.id title file minioKey)
        (replaceDoc cfg env title file minioKey d)
  | dispatched (doc : KnowledgeDoc) (rest : List KnowledgeDoc) (d : KnowledgeDoc)
      (hfail : env.fail = none) (hd : d ∈ w.docs.rows) (hid : d.id = doc.id)
      (hlog : w'.log d.id = .dispatched d.id :: w.log d.id) :
      RowCase cfg w env w' (.dispatchUpdate doc rest) (processingDoc env d)
  | answered (dto : RagWebhookDto) (answers : Option Job) (metaData : MetaData)
      (d : KnowledgeDoc) (hfail : env.fail = none)
      (hmeta : metaDataToUpdate env dto = some metaData) (hd : d ∈ w.docs.rows)
      (hid : d.id = dto.docId) (hlog : w'.log d.id = .webhook d.id answers :: w.log d.id) :
      RowCase cfg w env w' (.webhookUpdate dto answers) (webhookDoc env dto metaData d)

theorem Advance.row (h : Advance cfg w env pc w' pc') {d : KnowledgeDoc}
    (hd : d ∈ w'.docs.rows) : RowCase cfg w env w' pc d := by
  cases h with
  | created user file minioKey docs hfail hdocs =>
    rcases (Table.mem_create hdocs).1 hd with hold | rfl
    · have hne : d.id ≠ env.id := by
        intro heq
        refine (Table.create_eq_some.1 hdocs).1 ?_
        show env.id ∈ w.docs.rows.map KnowledgeDoc.id
        exact heq ▸ List.mem_map_of_mem hold
      exact .same _ d hold (World.log_commit_ne hne.symm)
    · exact .created user file minioKey hfail (World.log_commit_self rfl)
  | replaced user id title file minioKey docs hfail hdocs =>
    rcases (Table.mem_update hdocs).1 hd with ⟨hold, hne⟩ | ⟨d₀, hold, rfl, rfl⟩
    · exact .same _ d hold (World.log_commit_ne hne.symm)
    · exact .replaced user title file minioKey d₀ hfail hold (World.log_commit_self rfl)
  | rowDeleted user id docs hfail hdocs =>
    obtain ⟨hold, hne⟩ := (Table.mem_delete hdocs).1 hd
    exact .same _ d hold (World.log_commit_ne hne.symm)
  | marked doc rest docs hfail hdocs =>
    rcases (Table.mem_update hdocs).1 hd with ⟨hold, hne⟩ | ⟨d₀, hold, hid, rfl⟩
    · exact .same _ d hold (World.log_commit_ne hne.symm)
    · exact .dispatched doc rest d₀ hfail hold hid (hid ▸ World.log_commit_self rfl)
  | answered dto answers metaData docs hfail hmeta hdocs =>
    rcases (Table.mem_update hdocs).1 hd with ⟨hold, hne⟩ | ⟨d₀, hold, hid, rfl⟩
    · exact .same _ d hold (World.log_commit_ne hne.symm)
    · exact .answered dto answers metaData d₀ hfail hmeta hold hid (hid ▸ World.log_commit_self rfl)
  | stop | counted | stored | replaceFound | replaceStored | oldDeleted | oldKept
  | replaceFailed | deleteFound | objectDeleted | objectKept | deleteFailed | listed | selected
  | pushed | pushFailed | markFailed | answerFailed => exact .same _ d hd rfl

/-- Jobs are only ever added. -/
theorem Advance.jobs_subset (h : Advance cfg w env pc w' pc') : w.jobs ⊆ w'.jobs := by
  cases h with
  | pushed doc rest hfail => exact List.subset_append_left _ _
  | _ => exact List.Subset.refl _

end Advance

end ProtostarNest.Knowledge
