import Mathlib.Data.List.Perm.Basic
import ProtostarNest.Constants
import ProtostarNest.Lib.Table

/-!
# Documents, objects and jobs

The data of the knowledge feature: the `knowledge_docs` table, the object storage, the list
`ai:job:queue`, and what the code writes to them.

* `KnowledgeDoc`, `VectorizedDoc`, `MulterFile`, `RagWebhookDto`, `Job`: the records;
* `generateMinioKey` with the parts of node's `path` that it uses;
* `newDoc`, `replaceDoc`, `processingDoc`, `webhookDoc`: the rows that the statements write;
* `World`: the database, the storage and Redis, with `puts` and `history` as records of what
  was written.

A column or field that the client may leave out or set to `null` is an `Option (Option _)`:
`none` is `undefined` and `some none` is `null`.
-/

namespace ProtostarNest.Knowledge

/-! ### Records -/

inductive DocStatus
  | UPLOADED
  | PROCESSING
  | COMPLETED
  | FAILED
  deriving DecidableEq

/-- The JSON column `meta_data` when it is not `NULL`: `{}` or the result of the worker. -/
inductive MetaData
  | empty
  | result (chunkCount : Rat) (embeddingModel : String) (vectorStoreKey : Option (Option String))
      (completedAt : ℕ)
  deriving DecidableEq

structure KnowledgeDoc where
  id : String
  title : String
  originalFilename : String
  fileSize : ℕ
  mimeType : String
  minioBucket : String
  minioKey : String
  status : DocStatus
  version : ℕ
  contentHash : String
  errorMessage : Option String
  uploaderId : String
  metaData : Option MetaData
  createdAt : ℕ
  updatedAt : ℕ
  deriving DecidableEq

/-- A chunk row, as far as its foreign key goes (`ON DELETE RESTRICT`). -/
structure VectorizedDoc where
  id : String
  knowledgeDocId : String
  deriving DecidableEq

/-- The authenticated user. -/
structure User where
  id : String
  deriving DecidableEq

/-- `Express.Multer.File` with memory storage. -/
structure MulterFile where
  originalname : String
  mimetype : String
  buffer : List UInt8
  size : ℕ
  deriving DecidableEq

/-- The payload that the dispatcher pushes to `ai:job:queue`. -/
structure Job where
  docId : String
  minioKey : String
  mimeType : String
  minioBucket : String
  uploaderId : String
  deriving DecidableEq

structure RagResultMetaDto where
  chunkCount : Rat
  embeddingModel : String
  vectorStoreKey : Option (Option String)
  deriving DecidableEq

/-- A validated webhook body: `@IsEnum(['COMPLETED', 'FAILED'])` is the field `status_mem`. -/
structure RagWebhookDto where
  docId : String
  status : DocStatus
  errorMessage : Option (Option String)
  resultMeta : Option (Option RagResultMetaDto)
  status_mem : status = .COMPLETED ∨ status = .FAILED
  deriving DecidableEq

/-- What the requests are answered with when they fail. -/
inductive Exception
  | BadRequestException (message : String)
  | ForbiddenException (message : String)
  | NotFoundException (message : String)
  | InternalServerErrorException (message : String)
  | PrismaError (code : String)
  | Error (message : String)
  deriving DecidableEq

/-- The bucket of both services and the hash function. -/
structure Config where
  bucketName : String
  sha256 : List UInt8 → String

/-- What one awaited call gets from outside: the error it fails with, the clock, fresh ids, and
the order in which the database returns rows. -/
structure Env where
  fail : Option String := none
  now : ℕ := 0
  year : ℕ := 2025
  month : ℕ := 0
  uuid : String := ""
  id : String := ""
  order : List KnowledgeDoc := []

/-! ### Object keys -/

/-- The part of a path after its last `/`, trailing slashes aside. -/
def lastComponent (p : List Char) : List Char :=
  ((p.reverse.dropWhile (· = '/')).takeWhile (· ≠ '/')).reverse

/-- `path.extname`. -/
def extname (p : String) : String :=
  let base := lastComponent p.toList
  let after := base.reverse.takeWhile (· ≠ '.')
  if '.' ∉ base ∨ after.length + 1 = base.length ∨ base = ['.', '.'] then ""
  else String.ofList ('.' :: after.reverse)

/-- `path.basename` with a suffix to take off. -/
def basename (p suffix : String) : String :=
  let base := lastComponent p.toList
  if suffix = p then ""
  else if suffix.toList <:+ base ∧ suffix.toList ≠ base then
    String.ofList (base.take (base.length - suffix.toList.length))
  else String.ofList base

/-- `String(n).padStart(2, '0')`. -/
def padStart2 (n : ℕ) : String := if n < 10 then "0" ++ toString n else toString n

def generateMinioKey (env : Env) (filename : String) : String :=
  let ext := extname filename
  let name := basename filename ext
  toString env.year ++ "/" ++ padStart2 (env.month + 1) ++ "/" ++ env.uuid ++ "_" ++ name ++ ext

/-! ### Rows -/

section Rows

variable (cfg : Config) (env : Env)

/-- The row that `processSingleFileUpload` creates. -/
def newDoc (user : User) (file : MulterFile) (minioKey : String) : KnowledgeDoc where
  id := env.id
  title := file.originalname
  originalFilename := file.originalname
  fileSize := file.size
  mimeType := file.mimetype
  minioBucket := cfg.bucketName
  minioKey := minioKey
  status := .UPLOADED
  version := 1
  contentHash := cfg.sha256 file.buffer
  errorMessage := none
  uploaderId := user.id
  metaData := none
  createdAt := env.now
  updatedAt := env.now

/-- The `data` of the update in `replaceFile`; a `title` that is `undefined` stays as it is. -/
def replaceDoc (title : Option String) (file : MulterFile) (minioKey : String)
    (doc : KnowledgeDoc) : KnowledgeDoc :=
  { doc with
    title := title.getD doc.title
    originalFilename := file.originalname
    fileSize := file.size
    mimeType := file.mimetype
    minioKey := minioKey
    minioBucket := cfg.bucketName
    status := .UPLOADED
    version := doc.version + 1
    contentHash := cfg.sha256 file.buffer
    updatedAt := env.now }

/-- The `data` of the update in `dispatchPendingTasks`; Prisma sets `updatedAt`. -/
def processingDoc (doc : KnowledgeDoc) : KnowledgeDoc :=
  { doc with status := .PROCESSING, updatedAt := env.now }

/-- `metaDataToUpdate`, `none` when reading it throws: `resultMeta` is `null`. -/
def metaDataToUpdate (dto : RagWebhookDto) : Option MetaData :=
  if dto.status = .COMPLETED then
    match dto.resultMeta with
    | none => some .empty
    | some none => none
    | some (some m) => some (.result m.chunkCount m.embeddingModel m.vectorStoreKey env.now)
  else some .empty

/-- The `data` of the update in `updateDocStatusViaWebhook`. -/
def webhookDoc (dto : RagWebhookDto) (metaData : MetaData) (doc : KnowledgeDoc) : KnowledgeDoc :=
  { doc with
    status := dto.status
    errorMessage :=
      if dto.status = .FAILED then dto.errorMessage.getD doc.errorMessage else doc.errorMessage
    metaData := some metaData
    updatedAt := env.now }

/-- The job of a document. -/
def KnowledgeDoc.job (doc : KnowledgeDoc) : Job :=
  ⟨doc.id, doc.minioKey, doc.mimeType, doc.minioBucket, doc.uploaderId⟩

end Rows

/-! ### Responses -/

/-- An entry of `uploadedData`. -/
structure UploadedData where
  id : String
  title : String
  originalFilename : String
  fileSize : ℕ
  status : DocStatus
  version : ℕ
  createdAt : ℕ
  deriving DecidableEq

structure Response where
  uploadedData : List UploadedData
  total : ℕ
  canUpload : ℕ
  deriving DecidableEq

/-- `formatResponse` after its count; `Math.max(0, max - count)` is the subtraction of `ℕ`. -/
def formatResponse (docs : List KnowledgeDoc) (currentCount : ℕ) : Response where
  uploadedData := docs.map fun d =>
    ⟨d.id, d.title, d.originalFilename, d.fileSize, d.status, d.version, d.createdAt⟩
  total := currentCount
  canUpload := PERSONAL_MAX_UPLOADS - currentCount

/-! ### The stores -/

structure StoredObject where
  body : List UInt8
  contentType : String
  deriving DecidableEq

/-- What is in the bucket after an upload of the file. -/
def MulterFile.object (file : MulterFile) : StoredObject := ⟨file.buffer, file.mimetype⟩

/-- A statement that changed a row. -/
inductive Commit
  | created (id minioKey : String)
  | replaced (id minioKey : String)
  | deleted (id : String)
  | dispatched (id : String)
  | webhook (id : String) (answers : Option Job)
  deriving DecidableEq

/-- The row that a statement changed. -/
def Commit.docId : Commit → String
  | .created id _ => id
  | .replaced id _ => id
  | .deleted id => id
  | .dispatched id => id
  | .webhook id _ => id

/-- The database, the bucket and the job list. `puts` are the uploads to the bucket and
`history` the statements that changed rows, the latest first; `jobs` are all that were pushed. -/
structure World where
  docs : Table KnowledgeDoc.id
  vectors : List VectorizedDoc
  objects : String → Option StoredObject
  jobs : List Job
  puts : List (String × MulterFile)
  history : List Commit

namespace World

def empty : World := ⟨Table.empty, [], fun _ => none, [], [], []⟩

variable (w : World) (env : Env)

/-- `prisma.knowledgeDoc.count({ where: { uploaderId } })`. -/
def count (uploaderId : String) : ℕ := w.docs.rows.countP fun d => d.uploaderId = uploaderId

/-- The effect of a `PutObjectCommand`. -/
def putObject (file : MulterFile) (minioKey : String) : World :=
  { w with
    objects := Function.update w.objects minioKey (some ⟨file.buffer, file.mimetype⟩)
    puts := (minioKey, file) :: w.puts }

/-- The effect of a `DeleteObjectCommand`, which does not mind a missing key. -/
def removeObject (minioKey : String) : World :=
  { w with objects := Function.update w.objects minioKey none }

/-- `ObjectStorageService.uploadFile`. -/
def uploadFile (file : MulterFile) (minioKey : String) : Except Exception World :=
  match env.fail with
  | some e => .error (.InternalServerErrorException ("File Upload Failed: " ++ e))
  | none => .ok (w.putObject file minioKey)

/-- `ObjectStorageService.deleteFile`. -/
def deleteFile (minioKey : String) : Except Exception World :=
  match env.fail with
  | some e => .error (.InternalServerErrorException ("File Delete Failed: " ++ e))
  | none => .ok (w.removeObject minioKey)

/-- The effect of a statement that changes a row. -/
def commit (docs : Table KnowledgeDoc.id) (c : Commit) : World :=
  { w with docs := docs, history := c :: w.history }

/-- The statements that changed the row `id`, the latest first. -/
def log (id : String) : List Commit := w.history.filter fun c => c.docId = id

variable {w} in
theorem log_commit_self {docs : Table KnowledgeDoc.id} {c : Commit} {id : String}
    (h : c.docId = id) : (w.commit docs c).log id = c :: w.log id :=
  List.filter_cons_of_pos (decide_eq_true h)

variable {w} in
theorem log_commit_ne {docs : Table KnowledgeDoc.id} {c : Commit} {id : String}
    (h : c.docId ≠ id) : (w.commit docs c).log id = w.log id :=
  List.filter_cons_of_neg (by simpa using h)

/-- `prisma.knowledgeDoc.create`. -/
def create (doc : KnowledgeDoc) : Except Exception World :=
  match env.fail with
  | some e => .error (.Error e)
  | none =>
      match w.docs.create doc with
      | none => .error (.PrismaError "P2002")
      | some docs => .ok (w.commit docs (.created doc.id doc.minioKey))

/-- `prisma.knowledgeDoc.update` of the row `id`. -/
def update (id : String) (data : KnowledgeDoc → KnowledgeDoc) (hid : ∀ d, (data d).id = d.id)
    (c : Commit) : Except Exception World :=
  match env.fail with
  | some e => .error (.Error e)
  | none =>
      match w.docs.update id data hid with
      | none => .error (.PrismaError "P2025")
      | some docs => .ok (w.commit docs c)

/-- `prisma.knowledgeDoc.delete`, refused while a chunk refers to the row. -/
def delete (id : String) : Except Exception World :=
  match env.fail with
  | some e => .error (.Error e)
  | none =>
      if ∃ v ∈ w.vectors, v.knowledgeDocId = id then .error (.PrismaError "P2003")
      else
        match w.docs.delete id with
        | none => .error (.PrismaError "P2025")
        | some docs => .ok (w.commit docs (.deleted id))

/-- `redis.rpush('ai:job:queue', payload)`. -/
def rpush (job : Job) : Except Exception World :=
  match env.fail with
  | some e => .error (.Error e)
  | none => .ok { w with jobs := w.jobs ++ [job] }

/-! ### What the calls do -/

section Calls

variable {w env} {w' : World} {file : MulterFile} {k : String} {doc : KnowledgeDoc}
  {data : KnowledgeDoc → KnowledgeDoc} {hid : ∀ d, (data d).id = d.id} {c : Commit} {job : Job}
  {e : Exception}

theorem uploadFile_ok (h : w.uploadFile env file k = .ok w') :
    env.fail = none ∧ w' = w.putObject file k := by
  unfold uploadFile at h
  split at h
  · cases h
  · rename_i hfail
    cases h
    exact ⟨hfail, rfl⟩

theorem deleteFile_ok (h : w.deleteFile env k = .ok w') :
    env.fail = none ∧ w' = w.removeObject k := by
  unfold deleteFile at h
  split at h
  · cases h
  · rename_i hfail
    cases h
    exact ⟨hfail, rfl⟩

theorem deleteFile_error (h : w.deleteFile env k = .error e) : env.fail ≠ none := by
  unfold deleteFile at h
  split at h
  · rename_i hfail
    rw [hfail]
    exact Option.some_ne_none _
  · cases h

theorem create_ok (h : w.create env doc = .ok w') :
    env.fail = none ∧ ∃ docs, w.docs.create doc = some docs ∧
      w' = w.commit docs (.created doc.id doc.minioKey) := by
  unfold create at h
  split at h
  · cases h
  · rename_i hfail
    split at h
    · cases h
    · rename_i docs hdocs
      cases h
      exact ⟨hfail, docs, hdocs, rfl⟩

theorem update_ok (h : w.update env k data hid c = .ok w') :
    env.fail = none ∧ ∃ docs, w.docs.update k data hid = some docs ∧ w' = w.commit docs c := by
  unfold update at h
  split at h
  · cases h
  · rename_i hfail
    split at h
    · cases h
    · rename_i docs hdocs
      cases h
      exact ⟨hfail, docs, hdocs, rfl⟩

theorem update_error (h : w.update env k data hid c = .error e) :
    env.fail ≠ none ∨ k ∉ w.docs.rows.map KnowledgeDoc.id := by
  unfold update at h
  split at h
  · rename_i hfail
    exact Or.inl (by rw [hfail]; exact Option.some_ne_none _)
  · split at h
    · rename_i hnone
      exact Or.inr (Table.update_eq_none.1 hnone)
    · cases h

theorem delete_ok (h : w.delete env k = .ok w') :
    env.fail = none ∧ ∃ docs, w.docs.delete k = some docs ∧ w' = w.commit docs (.deleted k) := by
  unfold delete at h
  split at h
  · cases h
  · rename_i hfail
    split_ifs at h
    split at h
    · cases h
    · rename_i docs hdocs
      cases h
      exact ⟨hfail, docs, hdocs, rfl⟩

theorem delete_error (h : w.delete env k = .error e) :
    env.fail ≠ none ∨ (∃ v ∈ w.vectors, v.knowledgeDocId = k) ∨
      k ∉ w.docs.rows.map KnowledgeDoc.id := by
  unfold delete at h
  split at h
  · rename_i hfail
    exact Or.inl (by rw [hfail]; exact Option.some_ne_none _)
  · split_ifs at h with hchunk
    · exact Or.inr (Or.inl hchunk)
    · split at h
      · rename_i hnone
        exact Or.inr (Or.inr (Table.delete_eq_none.1 hnone))
      · cases h

theorem rpush_ok (h : w.rpush env job = .ok w') :
    env.fail = none ∧ w' = { w with jobs := w.jobs ++ [job] } := by
  unfold rpush at h
  split at h
  · cases h
  · rename_i hfail
    cases h
    exact ⟨hfail, rfl⟩

theorem rpush_error (h : w.rpush env job = .error e) : env.fail ≠ none := by
  unfold rpush at h
  split at h
  · rename_i hfail
    rw [hfail]
    exact Option.some_ne_none _
  · cases h

end Calls

/-- `rows` is an answer of the database to a query for the rows satisfying `p`, sorted. -/
def IsAnswer (p : KnowledgeDoc → Bool) (le : KnowledgeDoc → KnowledgeDoc → Prop)
    (rows : List KnowledgeDoc) : Prop :=
  rows.Perm (w.docs.rows.filter p) ∧ rows.Pairwise le

instance (p : KnowledgeDoc → Bool) (le : KnowledgeDoc → KnowledgeDoc → Prop) [DecidableRel le]
    (rows : List KnowledgeDoc) : Decidable (w.IsAnswer p le rows) :=
  inferInstanceAs (Decidable (_ ∧ _))

end World

end ProtostarNest.Knowledge
