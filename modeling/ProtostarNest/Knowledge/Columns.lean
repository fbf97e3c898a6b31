import Mathlib.Data.Int.Init
import Mathlib.Data.List.Forall2
import ProtostarNest.Knowledge.Doc

/-!
# Rows, jobs and responses, column by column

What a row, a job and a response say, apart from the functions that make them.

* `KnowledgeDoc.Stores`, `KnowledgeDoc.Replaces`, `KnowledgeDoc.Processing`: the row of an uploaded
  file, a row that another file has replaced, a row that is taken from the backlog;
* `Job.Carries`: the job of a row;
* `UploadedData.Shows`, `Response.Tells`: an entry for a row, and a response for a list of rows.
-/

namespace ProtostarNest.Knowledge

/-! ### Rows -/

/-- The row is that of the file of a user, as an upload makes it. -/
structure KnowledgeDoc.Stores (cfg : Config) (user : User) (file : MulterFile) (d : KnowledgeDoc) :
    Prop where
  title : d.title = file.originalname
  originalFilename : d.originalFilename = file.originalname
  fileSize : d.fileSize = file.size
  mimeType : d.mimeType = file.mimetype
  minioBucket : d.minioBucket = cfg.bucketName
  status : d.status = .UPLOADED
  version : d.version = 1
  contentHash : d.contentHash = cfg.sha256 file.buffer
  errorMessage : d.errorMessage = none
  uploaderId : d.uploaderId = user.id
  metaData : d.metaData = none

/-- `d'` is the next version of `d`, with the file. Without a title the old one stays. -/
structure KnowledgeDoc.Replaces (cfg : Config) (title : Option String) (file : MulterFile)
    (d d' : KnowledgeDoc) : Prop where
  id : d'.id = d.id
  title : d'.title = title.getD d.title
  originalFilename : d'.originalFilename = file.originalname
  fileSize : d'.fileSize = file.size
  mimeType : d'.mimeType = file.mimetype
  minioBucket : d'.minioBucket = cfg.bucketName
  status : d'.status = .UPLOADED
  version : d'.version = d.version + 1
  contentHash : d'.contentHash = cfg.sha256 file.buffer
  errorMessage : d'.errorMessage = d.errorMessage
  uploaderId : d'.uploaderId = d.uploaderId
  metaData : d'.metaData = d.metaData
  createdAt : d'.createdAt = d.createdAt

/-- `d'` is `d` with the status `PROCESSING`. -/
def KnowledgeDoc.Processing (d d' : KnowledgeDoc) : Prop :=
  d' = { d with status := .PROCESSING, updatedAt := d'.updatedAt }

section Rows

variable (cfg : Config) (env : Env) (file : MulterFile) (minioKey : String)

theorem newDoc_stores (user : User) :
    (newDoc cfg env user file minioKey).Stores cfg user file :=
  ⟨rfl, rfl, rfl, rfl, rfl, rfl, rfl, rfl, rfl, rfl, rfl⟩

theorem replaceDoc_replaces (title : Option String) (d : KnowledgeDoc) :
    d.Replaces cfg title file (replaceDoc cfg env title file minioKey d) :=
  ⟨rfl, rfl, rfl, rfl, rfl, rfl, rfl, rfl, rfl, rfl, rfl, rfl, rfl⟩

theorem processingDoc_processing (d : KnowledgeDoc) : d.Processing (processingDoc env d) := rfl

end Rows

theorem KnowledgeDoc.Processing.id {d d' : KnowledgeDoc} (h : d.Processing d') : d'.id = d.id := by
  rw [h]

theorem KnowledgeDoc.Processing.status {d d' : KnowledgeDoc} (h : d.Processing d') :
    d'.status = .PROCESSING := by
  rw [h]

/-! ### Jobs -/

/-- The job has the data of the row. -/
structure Job.Carries (job : Job) (d : KnowledgeDoc) : Prop where
  docId : job.docId = d.id
  minioKey : job.minioKey = d.minioKey
  minioBucket : job.minioBucket = d.minioBucket
  mimeType : job.mimeType = d.mimeType
  uploaderId : job.uploaderId = d.uploaderId

theorem KnowledgeDoc.job_carries (d : KnowledgeDoc) : d.job.Carries d :=
  ⟨rfl, rfl, rfl, rfl, rfl⟩

theorem forall₂_carries (docs : List KnowledgeDoc) :
    List.Forall₂ Job.Carries (docs.map KnowledgeDoc.job) docs :=
  List.forall₂_map_left_iff.2 (List.forall₂_same.2 fun d _ => d.job_carries)

/-! ### Responses -/

/-- The entry is that of the row. -/
structure UploadedData.Shows (x : UploadedData) (d : KnowledgeDoc) : Prop where
  id : x.id = d.id
  title : x.title = d.title
  originalFilename : x.originalFilename = d.originalFilename
  fileSize : x.fileSize = d.fileSize
  status : x.status = d.status
  version : x.version = d.version
  createdAt : x.createdAt = d.createdAt

/-- The response has an entry for each of the rows, in their order, and counts the rows that the
user has in `w`. -/
structure Response.Tells (docs : List KnowledgeDoc) (user : User) (w : World) (r : Response) :
    Prop where
  uploadedData : List.Forall₂ UploadedData.Shows r.uploadedData docs
  total : r.total = (w.docs.rows.filter fun d => d.uploaderId = user.id).length
  canUpload : (r.canUpload : ℤ) = max 0 ((PERSONAL_MAX_UPLOADS : ℤ) - r.total)

theorem formatResponse_tells (docs : List KnowledgeDoc) (user : User) (w : World) :
    (formatResponse docs (w.count user.id)).Tells docs user w where
  uploadedData := by
    refine List.forall₂_map_left_iff.2 (List.forall₂_same.2 fun d _ => ?_)
    exact ⟨rfl, rfl, rfl, rfl, rfl, rfl, rfl⟩
  total := List.countP_eq_length_filter
  canUpload := by
    simp only [formatResponse]
    omega

/-- Each entry is that of one of the rows. -/
theorem Response.Tells.exists_row {docs : List KnowledgeDoc} {user : User} {w : World}
    {r : Response} (h : r.Tells docs user w) {x : UploadedData} (hx : x ∈ r.uploadedData) :
    ∃ d ∈ docs, x.Shows d := by
  obtain ⟨n, hn, rfl⟩ := List.getElem_of_mem hx
  have hlen := h.uploadedData.length_eq
  exact ⟨_, List.getElem_mem (hlen ▸ hn), h.uploadedData.get hn (hlen ▸ hn)⟩

end ProtostarNest.Knowledge
