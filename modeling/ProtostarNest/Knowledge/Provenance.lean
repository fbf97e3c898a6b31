import ProtostarNest.Knowledge.Overload
import ProtostarNest.Knowledge.Owners

/-!
# Where users, files and results come from

The users for whom the server works, the owners of its rows, the files behind its rows and objects
and the results in its rows all come from requests that have arrived.

* `Pc.files`, `Request.files`: the files that a request holds;
* `Pc.report`, `Request.report`: the body of a webhook;
* `Holds P Q R`: the users of all requests satisfy `P`, their files `Q` and their webhooks `R`;
* `Sourced P Q R`: and so do the rows and objects;
* `Holds.step`, `Sourced.step`: each step keeps it, if the request that arrives, if one does, does
  so.
-/

namespace ProtostarNest.Knowledge

open Transition Queue

namespace Pc

/-- The files that the request has still to store or to describe. -/
def files : Pc → List MulterFile
  | .uploadCount _ files => files
  | .uploadAdmit _ files _ => files
  | .processPut _ file => [file]
  | .processCreate _ file _ => [file]
  | .replaceFind _ _ _ file => [file]
  | .replacePut _ _ file _ => [file]
  | .replaceDeleteOld _ _ file _ _ => [file]
  | .replaceUpdate _ _ _ file _ => [file]
  | _ => []

/-- What the worker reports. -/
def report : Pc → Option RagWebhookDto
  | .webhookUpdate dto _ => some dto
  | _ => none

theorem dispatchNext_holds (docs : List KnowledgeDoc) : (dispatchNext docs).user = none ∧
    (dispatchNext docs).files = [] ∧ (dispatchNext docs).report = none := by
  cases docs <;> exact ⟨rfl, rfl, rfl⟩

end Pc

def Request.files : Request → List MulterFile
  | .uploadFiles _ files => files
  | .replaceFile _ _ _ file => [file]
  | _ => []

def Request.report : Request → Option RagWebhookDto
  | .updateDocStatusViaWebhook dto _ => some dto
  | _ => none

section Sourced

variable (P : User → Prop) (Q : User → MulterFile → Prop) (R : RagWebhookDto → Prop)

structure Request.Sourced (r : Request) : Prop where
  user : ∀ v, r.user = some v → P v
  files : ∀ v, r.user = some v → ∀ f ∈ r.files, Q v f
  report : ∀ dto, r.report = some dto → R dto

structure Pc.Sourced (pc : Pc) : Prop where
  user : ∀ v, pc.user = some v → P v
  files : ∀ v, pc.user = some v → ∀ f ∈ pc.files, Q v f
  report : ∀ dto, pc.report = some dto → R dto

/-- The columns with the outcome of the work on the row come from such webhooks. -/
structure KnowledgeDoc.Told (d : KnowledgeDoc) : Prop where
  status : d.status = .COMPLETED ∨ d.status = .FAILED →
    ∃ dto, R dto ∧ dto.docId = d.id ∧ dto.status = d.status
  errorMessage : ∀ message, d.errorMessage = some message →
    ∃ dto, R dto ∧ dto.docId = d.id ∧ dto.status = .FAILED ∧
      dto.errorMessage = some (some message)
  metaData : ∀ metaData, d.metaData = some metaData →
    ∃ dto env, R dto ∧ dto.docId = d.id ∧ metaDataToUpdate env dto = some metaData

/-- The row belongs to such a user and describes such a file. -/
structure KnowledgeDoc.Sourced (d : KnowledgeDoc) : Prop where
  owner : P ⟨d.uploaderId⟩
  file : ∃ v f, Q v f ∧ d.originalFilename = f.originalname ∧ d.fileSize = f.size ∧
    d.mimeType = f.mimetype
  told : d.Told R

structure World.Sourced (w : World) : Prop where
  rows : ∀ d ∈ w.docs.rows, d.Sourced P Q R
  puts : ∀ p ∈ w.puts, (∃ v, Q v p.2) ∧ ∃ env, p.1 = generateMinioKey env p.2.originalname

def Sys.Holds (s : Sys) : Prop :=
  ∀ (i : ℕ) (op : Op), s.ops[i]? = some op → op.pc.Sourced P Q R

structure Http.Holds (h : Http) : Prop where
  ops : h.sys.Holds P Q R
  clients : ∀ (c : ℕ) (r : Request), h.clients[c]? = some (.checked r) → r.Sourced P Q R

structure Http.Sourced (h : Http) : Prop where
  holds : h.Holds P Q R
  world : h.sys.world.Sourced P Q R

variable {P Q R}

/-! ### Rows -/

section Told

variable {d : KnowledgeDoc}

theorem KnowledgeDoc.Told.of_none (hstatus : d.status = .UPLOADED) (herror : d.errorMessage = none)
    (hmeta : d.metaData = none) : d.Told R where
  status := fun hd => by rcases hd with hd | hd <;> rw [hstatus] at hd <;> cases hd
  errorMessage := fun message hd => by rw [herror] at hd; cases hd
  metaData := fun metaData hd => by rw [hmeta] at hd; cases hd

/-- A statement of the server itself resets the status and keeps the other columns. -/
theorem KnowledgeDoc.Told.reset (hd : d.Told R) {d' : KnowledgeDoc} (hid : d'.id = d.id)
    (hstatus : d'.status = .UPLOADED ∨ d'.status = .PROCESSING)
    (herror : d'.errorMessage = d.errorMessage) (hmeta : d'.metaData = d.metaData) :
    d'.Told R where
  status := fun hd' => by
    rcases hstatus with hs | hs <;> rw [hs] at hd' <;> rcases hd' with hd' | hd' <;> cases hd'
  errorMessage := fun message hd' => hid ▸ hd.errorMessage message (herror ▸ hd')
  metaData := fun metaData hd' => hid ▸ hd.metaData metaData (hmeta ▸ hd')

theorem KnowledgeDoc.Told.webhook (hd : d.Told R) {env : Env} {dto : RagWebhookDto}
    {metaData : MetaData} (hdto : R dto) (hid : d.id = dto.docId)
    (hmeta : metaDataToUpdate env dto = some metaData) : (webhookDoc env dto metaData d).Told R where
  status := fun _ => ⟨dto, hdto, hid.symm, rfl⟩
  errorMessage := fun message hd' => by
    simp only [webhookDoc] at hd'
    split_ifs at hd' with hfailed
    · cases herror : dto.errorMessage with
      | none =>
        rw [herror] at hd'
        exact hd.errorMessage message hd'
      | some error =>
        rw [herror] at hd'
        exact ⟨dto, hdto, hid.symm, hfailed, herror.trans (congrArg some hd')⟩
    · exact hd.errorMessage message hd'
  metaData := fun _ hd' => ⟨dto, env, hdto, hid.symm, hmeta.trans hd'⟩

end Told

/-! ### Requests -/

theorem Pc.Sourced.of_none {pc : Pc} (huser : pc.user = none) (hfiles : pc.files = [])
    (hreport : pc.report = none) : pc.Sourced P Q R := by
  refine ⟨fun v hv => ?_, fun _ _ f hf => ?_, fun dto hdto => ?_⟩
  · rw [huser] at hv
    cases hv
  · rw [hfiles] at hf
    cases hf
  · rw [hreport] at hdto
    cases hdto

theorem Pc.Sourced.throw (e : Exception) : (Pc.throw e).Sourced P Q R := .of_none rfl rfl rfl

/-- The next control point works for the same user with the same files. -/
theorem Pc.Sourced.mono {pc pc' : Pc} (h : pc.Sourced P Q R)
    (huser : pc'.user = none ∨ pc'.user = pc.user) (hfiles : pc'.files ⊆ pc.files)
    (hreport : pc'.report = none) : pc'.Sourced P Q R := by
  have hsame : ∀ v, pc'.user = some v → pc.user = some v := by
    intro v hv
    rcases huser with huser | huser
    · rw [huser] at hv
      cases hv
    · exact huser.symm.trans hv
  refine ⟨fun v hv => h.user v (hsame v hv),
    fun v hv f hf => h.files v (hsame v hv) f (hfiles hf), fun dto hdto => ?_⟩
  rw [hreport] at hdto
  cases hdto

section Advance

variable {cfg : Config} {w w' : World} {env : Env} {pc pc' : Pc}

theorem Advance.sourced (h : Advance cfg w env pc w' pc') (hpc : pc.Sourced P Q R) :
    pc'.Sourced P Q R := by
  have hnext : ∀ docs, (Pc.dispatchNext docs).Sourced P Q R := fun docs =>
    .of_none (Pc.dispatchNext_holds docs).1 (Pc.dispatchNext_holds docs).2.1
      (Pc.dispatchNext_holds docs).2.2
  cases h with
  | stop pc result hpc' => exact .of_none rfl rfl rfl
  | selected horder => exact hnext _
  | pushFailed doc rest hfail => exact hnext _
  | marked doc rest docs hfail hdocs => exact hnext _
  | markFailed doc rest hfail => exact hnext _
  | pushed | created | replaceFailed | deleteFailed | answered | answerFailed =>
    exact .of_none rfl rfl rfl
  | counted | stored | replaceFound | replaceStored | oldDeleted | oldKept | objectDeleted
  | objectKept | deleteFound => exact hpc.mono (Or.inr rfl) (List.Subset.refl _) rfl
  | replaced | rowDeleted | listed => exact hpc.mono (Or.inr rfl) (List.nil_subset _) rfl

theorem Advance.world_sourced (h : Advance cfg w env pc w' pc') (hw : w.Sourced P Q R)
    (hpc : pc.Sourced P Q R) : w'.Sourced P Q R := by
  refine ⟨fun d hd => ?_, fun p hp => ?_⟩
  · cases h.row hd with
    | same _ _ hd₀ hlog => exact hw.rows d hd₀
    | created user file minioKey hfail hlog =>
      exact ⟨hpc.user user rfl,
        ⟨user, file, hpc.files user rfl file (List.mem_singleton_self _), rfl, rfl, rfl⟩,
        .of_none rfl rfl rfl⟩
    | replaced user title file minioKey d₀ hfail hd₀ hlog =>
      have hrow := hw.rows d₀ hd₀
      exact ⟨hrow.owner,
        ⟨user, file, hpc.files user rfl file (List.mem_singleton_self _), rfl, rfl, rfl⟩,
        hrow.told.reset rfl (Or.inl rfl) rfl rfl⟩
    | dispatched doc rest d₀ hfail hd₀ hid hlog =>
      have hrow := hw.rows d₀ hd₀
      exact ⟨hrow.owner, hrow.file, hrow.told.reset rfl (Or.inr rfl) rfl rfl⟩
    | answered dto answers metaData d₀ hfail hmeta hd₀ hid hlog =>
      have hrow := hw.rows d₀ hd₀
      exact ⟨hrow.owner, hrow.file, hrow.told.webhook (hpc.report dto rfl) hid hmeta⟩
  · have hput : ∀ user file, pc.user = some user → file ∈ pc.files →
        p = (generateMinioKey env file.originalname, file) →
          (∃ v, Q v p.2) ∧ ∃ env, p.1 = generateMinioKey env p.2.originalname := by
      rintro user file huser hfile rfl
      exact ⟨⟨user, hpc.files user huser file hfile⟩, env, rfl⟩
    cases h with
    | stored user file hfail =>
      rcases List.mem_cons.1 hp with hp | hp
      · exact hput user file rfl (List.mem_singleton_self _) hp
      · exact hw.puts p hp
    | replaceStored user title file doc hfail =>
      rcases List.mem_cons.1 hp with hp | hp
      · exact hput user file rfl (List.mem_singleton_self _) hp
      · exact hw.puts p hp
    | _ => exact hw.puts p hp

end Advance

/-! ### Steps of the server -/

section Step

variable {cfg : Config} {s s' : Sys} {e : Event}

theorem add_holds (hs : s.Holds P Q R) {pc : Pc} (hpc : pc.Sourced P Q R) :
    (s.add pc).Holds P Q R := by
  obtain ⟨op, hops, hop⟩ := add_ops (s := s) pc
  intro i op' hop'
  rw [hops] at hop'
  rcases getElem?_concat_cases hop' with hold | ⟨-, rfl⟩
  · exact hs i op' hold
  · rcases hop with hop | hop
    · rw [hop]
      exact hpc
    · rw [hop]
      exact .throw _

theorem addAll_holds {user : User} {files : List MulterFile} (hs : s.Holds P Q R)
    (huser : P user) (hfiles : ∀ f ∈ files, Q user f) : (s.addAll user files).Holds P Q R := by
  induction files generalizing s with
  | nil => exact hs
  | cons file files ih =>
    refine ih (add_holds hs ⟨fun v hv => by cases hv; exact huser, fun v hv f hf => ?_,
      fun dto hdto => by cases hdto⟩) fun f hf => hfiles f (List.mem_cons_of_mem _ hf)
    cases hv
    exact hfiles f (List.mem_singleton.1 hf ▸ List.mem_cons_self)

theorem set_holds (hs : s.Holds P Q R) {i : ℕ} {op' : Op} (hop' : op'.pc.Sourced P Q R) :
    ∀ (j : ℕ) (op : Op), (s.ops.set i op')[j]? = some op → op.pc.Sourced P Q R := by
  intro j op hop
  rcases getElem?_set_cases hop with ⟨-, rfl⟩ | ⟨-, hold⟩
  · exact hop'
  · exact hs j op hold

theorem receive_holds {r : Request} (hs : s.Holds P Q R) (hr : r.Sourced P Q R)
    (h : s.receive r = some s') : s'.Holds P Q R := by
  have hspawn : ∀ pc : Pc, pc.Sourced P Q R → (s.spawn pc).Holds P Q R := by
    intro pc hpc i op hop
    rcases getElem?_concat_cases hop with hold | ⟨-, rfl⟩
    · exact hs i op hold
    · exact hpc
  cases r with
  | uploadFiles user files =>
    obtain rfl := Option.some.inj h
    exact hspawn _ ⟨hr.user, hr.files, hr.report⟩
  | replaceFile user id title file =>
    obtain rfl := Option.some.inj h
    exact add_holds hs ⟨hr.user, hr.files, hr.report⟩
  | deleteFile user id =>
    obtain rfl := Option.some.inj h
    exact hspawn _ ⟨hr.user, hr.files, hr.report⟩
  | findAll user =>
    obtain rfl := Option.some.inj h
    exact hspawn _ ⟨hr.user, hr.files, hr.report⟩
  | dispatchPendingTasks =>
    obtain rfl := Option.some.inj h
    exact hspawn _ (.of_none rfl rfl rfl)
  | updateDocStatusViaWebhook dto answers =>
    simp only [Sys.receive] at h
    split_ifs at h
    obtain rfl := Option.some.inj h
    exact hspawn _ ⟨hr.user, hr.files, hr.report⟩

theorem resume_holds {i : ℕ} {env : Env} (hs : s.Holds P Q R)
    (h : step cfg s (.resume i env) = some s') : s'.Holds P Q R := by
  obtain ⟨-, op, hop, hres⟩ := step_resume_iff.1 h
  have hpc := hs i op hop
  cases hres with
  | accepted user files currentCount hadm =>
    rw [hadm] at hpc
    unfold Sys.accept
    split_ifs with hlimit
    · exact set_holds hs (.throw _)
    · have hall := addAll_holds hs (hpc.user user rfl) (hpc.files user rfl)
      exact set_holds hall (hpc.mono (Or.inr rfl) (List.nil_subset _) rfl)
  | joined user tasks result hjoin hresult =>
    rw [hjoin] at hpc
    exact set_holds hs (hpc.mono (Or.inr rfl) (List.nil_subset _) rfl)
  | released result hdone hqueued => exact set_holds hs hpc
  | called w pc hcall hadv => exact set_holds hs ((advance_sound hadv).sourced hpc)

theorem step_world_sourced (hs : s.Holds P Q R) (hw : s.world.Sourced P Q R)
    (h : step cfg s e = some s') : s'.world.Sourced P Q R :=
  world_step (P := World.Sourced P Q R) hw h fun i _ op _ _ _ hc =>
    hc.advance.world_sourced hw (hs i op hc.op_eq)

end Step

namespace Http

variable {cfg : Config} {h h' : Http} {e : HttpEvent}

/-- A step of the server with its clients is one of the server without them, or none. -/
theorem step_sys (hstep : Http.step cfg h e = some h') :
    h'.sys = h.sys ∨ ∃ se, Knowledge.step cfg h.sys se = some h'.sys ∧
      ∀ i env, se = .resume i env → e = .resume i env := by
  cases e with
  | intercept r =>
    simp only [Http.step] at hstep
    split_ifs at hstep
    split at hstep <;> obtain rfl := Option.some.inj hstep <;> exact Or.inl rfl
  | handle c =>
    simp only [Http.step] at hstep
    split at hstep
    · rename_i r hc
      obtain ⟨s, hs, rfl⟩ := Option.map_eq_some_iff.1 hstep
      exact Or.inr ⟨.request r, hs, fun i env heq => by cases heq⟩
    · cases hstep
  | request r =>
    simp only [Http.step] at hstep
    split_ifs at hstep
    obtain ⟨s, hs, rfl⟩ := Option.map_eq_some_iff.1 hstep
    exact Or.inr ⟨.request r, hs, fun i env heq => by cases heq⟩
  | resume i env =>
    obtain ⟨s, hs, rfl⟩ := Option.map_eq_some_iff.1 hstep
    exact Or.inr ⟨.resume i env, hs, fun i env heq => by cases heq; rfl⟩

/-- **Whatever the requests hold comes from a request that has arrived.** -/
theorem Holds.step (hh : h.Holds P Q R)
    (hr : ∀ r, e = .intercept r ∨ e = .request r → r.Sourced P Q R)
    (hstep : Http.step cfg h e = some h') : h'.Holds P Q R := by
  cases e with
  | intercept r =>
    simp only [Http.step] at hstep
    have hclient : ∀ client : Client, (∀ r', client = .checked r' → r'.Sourced P Q R) →
        ({ h with clients := h.clients ++ [client] } : Http).Holds P Q R := by
      refine fun client hclient => ⟨hh.ops, fun c r' hc => ?_⟩
      by_cases hlt : c < h.clients.length
      · rw [List.getElem?_append_left hlt] at hc
        exact hh.clients c r' hc
      · rw [List.getElem?_append_right (Nat.not_lt.1 hlt)] at hc
        exact hclient r' (List.mem_singleton.1 (List.mem_of_getElem? hc)).symm
    split_ifs at hstep
    split at hstep <;> obtain rfl := Option.some.inj hstep
    · exact hclient _ fun r' heq => by cases heq
    · exact hclient _ fun r' heq => by cases heq; exact hr _ (Or.inl rfl)
  | handle c =>
    simp only [Http.step] at hstep
    split at hstep
    · rename_i r hc
      obtain ⟨s, hs, rfl⟩ := Option.map_eq_some_iff.1 hstep
      refine ⟨receive_holds hh.ops (hh.clients c r hc) hs, fun c' r' hc' => ?_⟩
      by_cases heq : c = c'
      · subst heq
        rw [List.getElem?_set_self (List.getElem?_eq_some_iff.1 hc).1] at hc'
        cases hc'
      · rw [List.getElem?_set_ne heq] at hc'
        exact hh.clients c' r' hc'
    · cases hstep
  | request r =>
    simp only [Http.step] at hstep
    split_ifs at hstep
    obtain ⟨s, hs, rfl⟩ := Option.map_eq_some_iff.1 hstep
    exact ⟨receive_holds hh.ops (hr r (Or.inr rfl)) hs, hh.clients⟩
  | resume i env =>
    obtain ⟨s, hs, rfl⟩ := Option.map_eq_some_iff.1 hstep
    exact ⟨resume_holds hh.ops hs, hh.clients⟩

/-- **And so does whatever is stored.** -/
theorem Sourced.step (hh : h.Sourced P Q R)
    (hr : ∀ r, e = .intercept r ∨ e = .request r → r.Sourced P Q R)
    (hstep : Http.step cfg h e = some h') : h'.Sourced P Q R := by
  refine ⟨hh.holds.step hr hstep, ?_⟩
  rcases step_sys hstep with hsame | ⟨se, hse, -⟩
  · rw [hsame]
    exact hh.world
  · exact step_world_sourced hh.holds.ops hh.world hse

end Http

theorem sourced_boot : (Http.boot World.empty).Sourced P Q R where
  holds := ⟨fun _ _ hop => (by cases hop), fun _ _ hc => by cases hc⟩
  world := ⟨fun _ hd => absurd hd List.not_mem_nil, fun _ hp => absurd hp List.not_mem_nil⟩

/-! ### Weaker conditions -/

section Imp

variable {P' : User → Prop} {Q' : User → MulterFile → Prop} {R' : RagWebhookDto → Prop}

theorem KnowledgeDoc.Told.imp {d : KnowledgeDoc} (hd : d.Told R) (hR : ∀ dto, R dto → R' dto) :
    d.Told R' where
  status := fun hstatus => (hd.status hstatus).imp fun dto hdto => hdto.imp_left (hR dto)
  errorMessage := fun message herror =>
    (hd.errorMessage message herror).imp fun dto hdto => hdto.imp_left (hR dto)
  metaData := fun metaData hmeta =>
    (hd.metaData metaData hmeta).imp fun dto henv => henv.imp fun _ hdto => hdto.imp_left (hR dto)

theorem Http.Holds.imp {h : Http} (hh : h.Holds P Q R) (hP : ∀ v, P v → P' v)
    (hQ : ∀ v f, Q v f → Q' v f) (hR : ∀ dto, R dto → R' dto) : h.Holds P' Q' R' where
  ops := fun i op hop => ⟨fun v hv => hP v ((hh.ops i op hop).user v hv),
    fun v hv f hf => hQ v f ((hh.ops i op hop).files v hv f hf),
    fun dto hdto => hR dto ((hh.ops i op hop).report dto hdto)⟩
  clients := fun c r hc => ⟨fun v hv => hP v ((hh.clients c r hc).user v hv),
    fun v hv f hf => hQ v f ((hh.clients c r hc).files v hv f hf),
    fun dto hdto => hR dto ((hh.clients c r hc).report dto hdto)⟩

theorem Http.Sourced.imp {h : Http} (hh : h.Sourced P Q R) (hP : ∀ v, P v → P' v)
    (hQ : ∀ v f, Q v f → Q' v f) (hR : ∀ dto, R dto → R' dto) : h.Sourced P' Q' R' where
  holds := hh.holds.imp hP hQ hR
  world := ⟨fun d hd => ⟨hP _ (hh.world.rows d hd).owner,
      (hh.world.rows d hd).file.imp fun v hf => hf.imp fun f hf => ⟨hQ v f hf.1, hf.2⟩,
      (hh.world.rows d hd).told.imp hR⟩,
    fun p hp => (hh.world.puts p hp).imp_left fun hv => hv.imp fun v hq => hQ v _ hq⟩

end Imp

end Sourced

end ProtostarNest.Knowledge
