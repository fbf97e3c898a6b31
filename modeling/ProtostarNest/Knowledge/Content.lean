import ProtostarNest.Knowledge.Keys

/-!
# Rows and their objects

A replacement stores the new object, deletes the old one and then updates the row, and a deletion
removes the object before the row, both without a lock; in between the row names an object that
is gone.  The invariant `Accounted` charges each such row to a request that is about to change or
to delete it.  By `Keyed` no key that a request has read is held by another one, so no request
deletes the object that another one is about to name.

* `Content`: what a step does to objects and keys, in four cases;
* `accounted_step`: the invariant is kept by the steps in which nothing fails and no object key
  is repeated;
* `intact_of_quiescent`: when no upload, replacement or deletion is in flight, each row names a
  stored object and describes it, and its version counts its replacements.
-/

namespace ProtostarNest.Knowledge

open Transition Queue

namespace Pc

/-- The row whose object the request has deleted. -/
def doomed : Pc → Option String
  | .replaceUpdate _ id _ _ _ => some id
  | .deleteRow _ id => some id
  | _ => none

/-- Uploads, replacements and deletions up to their last write; the listing that follows it
changes nothing. -/
def InFlight : Pc → Prop
  | .uploadCount _ _ => True
  | .uploadAdmit _ _ _ => True
  | .uploadJoin _ _ => True
  | .processPut _ _ => True
  | .processCreate _ _ _ => True
  | .replaceFind _ _ _ _ => True
  | .replacePut _ _ _ _ => True
  | .replaceDeleteOld _ _ _ _ _ => True
  | .replaceUpdate _ _ _ _ _ => True
  | .deleteFind _ _ => True
  | .deleteObject _ _ => True
  | .deleteRow _ _ => True
  | _ => False

instance (pc : Pc) : Decidable pc.InFlight := by
  rcases pc with _ | _ <;> first | exact instDecidableTrue | exact instDecidableFalse

theorem Idle.doomed {pc : Pc} (h : pc.Idle) : pc.doomed = none := by
  cases pc <;> first | exact h.elim | rfl

theorem dispatchNext_doomed (docs : List KnowledgeDoc) : (dispatchNext docs).doomed = none := by
  cases docs <;> rfl

theorem doomed_eq_none_of_target {pc : Pc} (h : pc.target = none) : pc.doomed = none := by
  cases pc <;> first | rfl | cases h

end Pc

/-- What a step of a request does to objects and keys. -/
inductive Content (w : World) (env : Env) (pc : Pc) (w' : World) (pc' : Pc) : Prop
  | keep (hobjects : w'.objects = w.objects) (hputs : w'.puts = w.puts)
      (hpub : w'.published = w.published) (hheld : pc'.held = none)
      (hread : ∀ d, pc'.read = some d → d ∈ w.docs.rows) (hdoomed : pc'.doomed = none)
  | put (file : MulterFile) (hstoring : pc.storing = some file)
      (hw : w' = w.putObject file (generateMinioKey env file.originalname))
      (hheld : pc'.held = some (generateMinioKey env file.originalname, file))
      (hread : pc'.read = pc.read) (hdoomed : pc'.doomed = none)
  | remove (d : KnowledgeDoc) (hread : pc.read = some d) (hw : w' = w.removeObject d.minioKey)
      (hheld : pc'.held = pc.held) (hread' : pc'.read = none) (hdoomed : pc'.doomed = some d.id)
  | publish (p : String × MulterFile) (id : String) (hheld : pc.held = some p)
      (hobjects : w'.objects = w.objects) (hputs : w'.puts = w.puts)
      (hpub : w'.published = (p.1, id) :: w.published) (hheld' : pc'.held = none)
      (hread : pc'.read = none) (hdoomed : pc'.doomed = none)

section Advance

variable {cfg : Config} {w w' : World} {env : Env} {pc pc' : Pc}

/-- Only the push to Redis may fail. -/
def OnlyPushFails (env : Env) : Pc → Prop
  | .dispatchPush _ _ => True
  | _ => env.fail = none

instance (env : Env) (pc : Pc) : Decidable (OnlyPushFails env pc) := by
  rcases pc with _ | _ <;>
    first | exact instDecidableTrue | exact inferInstanceAs (Decidable (env.fail = none))

theorem Advance.content (h : Advance cfg w env pc w' pc') (hfail : OnlyPushFails env pc) :
    Content w env pc w' pc' := by
  have hkeep : ∀ docs, (Pc.dispatchNext docs).held = none ∧
      (∀ d, (Pc.dispatchNext docs).read = some d → d ∈ w.docs.rows) ∧
      (Pc.dispatchNext docs).doomed = none := by
    intro docs
    obtain ⟨hheld, hread⟩ := Pc.dispatchNext_held_read docs
    exact ⟨hheld, (fun d hd => by rw [hread] at hd; cases hd), Pc.dispatchNext_doomed docs⟩
  cases h with
  | stored user file hfail => exact .put file rfl rfl rfl rfl rfl
  | replaceStored user title file doc hfail => exact .put file rfl rfl rfl rfl rfl
  | created user file minioKey docs hfail hdocs =>
    exact .publish (minioKey, file) env.id rfl rfl rfl rfl rfl rfl rfl
  | replaced user id title file minioKey docs hfail hdocs =>
    exact .publish (minioKey, file) id rfl rfl rfl rfl rfl rfl rfl
  | oldDeleted user title file doc minioKey hfail => exact .remove doc rfl rfl rfl rfl rfl
  | objectDeleted user doc hfail => exact .remove doc rfl rfl rfl rfl rfl
  | oldKept user title file doc minioKey hno => exact absurd hfail hno
  | objectKept user doc hno => exact absurd hfail hno
  | replaceFound user title file doc hdoc howner =>
    exact .keep rfl rfl rfl rfl (fun d hd => by cases hd; exact hdoc) rfl
  | deleteFound user doc hdoc howner =>
    exact .keep rfl rfl rfl rfl (fun d hd => by cases hd; exact hdoc) rfl
  | selected horder => exact .keep rfl rfl rfl (hkeep _).1 (hkeep _).2.1 (hkeep _).2.2
  | pushFailed doc rest hno => exact .keep rfl rfl rfl (hkeep _).1 (hkeep _).2.1 (hkeep _).2.2
  | marked doc rest docs hfail hdocs =>
    exact .keep rfl rfl rfl (hkeep _).1 (hkeep _).2.1 (hkeep _).2.2
  | markFailed doc rest hno => exact .keep rfl rfl rfl (hkeep _).1 (hkeep _).2.1 (hkeep _).2.2
  | stop | counted | replaceFailed | rowDeleted | deleteFailed | listed | pushed | answered
  | answerFailed => exact .keep rfl rfl rfl rfl (fun _ hd => by cases hd) rfl

/-- A request that leaves the point between the two deletions takes its row along. -/
theorem Advance.doomed_gone (h : Advance cfg w env pc w' pc') (hfail : OnlyPushFails env pc)
    (hchunks : w.vectors = []) {d : KnowledgeDoc} (hd : d ∈ w.docs.rows)
    (hlog : w'.log d.id = w.log d.id) : pc.doomed ≠ some d.id := by
  intro hdoom
  cases h with
  | stop pc result hpc => rw [Pc.doomed_eq_none_of_target hpc] at hdoom; cases hdoom
  | replaced user id title file minioKey docs hfail hdocs =>
    cases hdoom
    exact List.cons_ne_self _ _ ((World.log_commit_self rfl).symm.trans hlog)
  | rowDeleted user id docs hfail hdocs =>
    cases hdoom
    exact List.cons_ne_self _ _ ((World.log_commit_self rfl).symm.trans hlog)
  | replaceFailed user id title file minioKey e hno =>
    cases hdoom
    rcases hno with hno | hno
    · exact hno hfail
    · exact hno (List.mem_map_of_mem hd)
  | deleteFailed user id e hno =>
    cases hdoom
    rcases hno with hno | ⟨v, hv, -⟩ | hno
    · exact hno hfail
    · rw [hchunks] at hv
      cases hv
    · exact hno (List.mem_map_of_mem hd)
  | _ => cases hdoom

theorem Advance.vectors (h : Advance cfg w env pc w' pc') : w'.vectors = w.vectors := by
  cases h <;> rfl

end Advance

/-! ### The invariant -/

/-- The columns that are taken from the file. -/
structure Describes (cfg : Config) (d : KnowledgeDoc) (file : MulterFile) : Prop where
  contentHash : d.contentHash = cfg.sha256 file.buffer
  fileSize : d.fileSize = file.size
  mimeType : d.mimeType = file.mimetype
  originalFilename : d.originalFilename = file.originalname

structure Accounted (cfg : Config) (s : Sys) : Prop where
  chunks : s.world.vectors = []
  puts_nodup : (s.world.puts.map Prod.fst).Nodup
  published_nodup : (s.world.published.map Prod.fst).Nodup
  published_put : ∀ k ∈ s.world.published.map Prod.fst, k ∈ s.world.puts.map Prod.fst
  row_published : ∀ d ∈ s.world.docs.rows, (d.minioKey, d.id) ∈ s.world.published
  read_published : ∀ (j : ℕ) (op : Op) (d : KnowledgeDoc), s.ops[j]? = some op →
    op.pc.read = some d → (d.minioKey, d.id) ∈ s.world.published
  held_stored : ∀ (j : ℕ) (op : Op) (p : String × MulterFile), s.ops[j]? = some op →
    op.pc.held = some p → p ∈ s.world.puts ∧ s.world.objects p.1 = some p.2.object ∧
      p.1 ∉ s.world.published.map Prod.fst
  held_apart : ∀ (i j : ℕ) (op op' : Op) (p p' : String × MulterFile), i ≠ j →
    s.ops[i]? = some op → s.ops[j]? = some op' → op.pc.held = some p → op'.pc.held = some p' →
      p.1 ≠ p'.1
  row_charged : ∀ d ∈ s.world.docs.rows, ∃ file, (d.minioKey, file) ∈ s.world.puts ∧
    Describes cfg d file ∧ (s.world.objects d.minioKey = some file.object ∨
      ∃ (j : ℕ) (op : Op), s.ops[j]? = some op ∧ op.pc.doomed = some d.id)

/-- Nothing fails, except pushes to Redis, and no object key is generated twice. -/
def Undisturbed (s : Sys) : Event → Prop
  | .resume i env =>
      match s.pc? i with
      | some pc =>
          OnlyPushFails env pc ∧
            ∀ file ∈ pc.storing, generateMinioKey env file.originalname ∉ s.world.puts.map Prod.fst
      | none => True
  | .request _ => True

instance (s : Sys) (e : Event) : Decidable (Undisturbed s e) := by
  unfold Undisturbed
  split
  · split <;> infer_instance
  · infer_instance

section Accounted

variable {cfg : Config} {s s' : Sys} {e : Event} {i : ℕ} {env : Env} {op : Op} {w : World}
  {pc : Pc}

theorem Accounted.keyed (hs : Accounted cfg s) : Keyed s :=
  ⟨hs.puts_nodup, hs.published_nodup, hs.published_put, hs.row_published, hs.read_published,
    fun j op p hop hp => ⟨(hs.held_stored j op p hop hp).1, (hs.held_stored j op p hop hp).2.2⟩,
    hs.held_apart⟩

/-- What `Accounted` adds to the keys. -/
theorem Accounted.of_keyed (hk : Keyed s) (hchunks : s.world.vectors = [])
    (hstored : ∀ (j : ℕ) (op : Op) (p : String × MulterFile), s.ops[j]? = some op →
      op.pc.held = some p → s.world.objects p.1 = some p.2.object)
    (hrow : ∀ d ∈ s.world.docs.rows, ∃ file, (d.minioKey, file) ∈ s.world.puts ∧
      Describes cfg d file ∧ (s.world.objects d.minioKey = some file.object ∨
        ∃ (j : ℕ) (op : Op), s.ops[j]? = some op ∧ op.pc.doomed = some d.id)) :
    Accounted cfg s :=
  ⟨hchunks, hk.puts_nodup, hk.published_nodup, hk.published_put, hk.row_published,
    hk.read_published, fun j op p hop hp => ⟨(hk.held_put j op p hop hp).1,
      hstored j op p hop hp, (hk.held_put j op p hop hp).2⟩, hk.held_apart, hrow⟩

theorem accounted_quiet (hs : Accounted cfg s) (h : Quiet s s') : Accounted cfg s' := by
  refine .of_keyed (keyed_quiet hs.keyed h) ?_ ?_ ?_
  · rw [h.world]
    exact hs.chunks
  · intro j op p hop hp
    rw [h.world]
    exact (hs.held_stored j op p (h.held_old hop hp) hp).2.1
  · intro d hd
    rw [h.world] at hd ⊢
    obtain ⟨file, hput, hdesc, hobj⟩ := hs.row_charged d hd
    refine ⟨file, hput, hdesc, hobj.imp_right ?_⟩
    rintro ⟨j, op, hop, hdoom⟩
    refine ⟨j, op, (h.kept j op hop).resolve_right fun hidle => ?_, hdoom⟩
    rw [hidle.doomed] at hdoom
    cases hdoom

section Calls

variable (hs : Accounted cfg s) (hc : Calls cfg s s' i env op w pc)
  (hcontent : Content s.world env op.pc w pc)
  (hfresh : ∀ file, op.pc.storing = some file →
    generateMinioKey env file.originalname ∉ s.world.puts.map Prod.fst)

include hcontent hfresh in
/-- An object that was stored is still there, or the request has just deleted it. -/
theorem Content.objects {k : String} (hk : k ∈ s.world.puts.map Prod.fst) :
    w.objects k = s.world.objects k ∨
      ∃ d, op.pc.read = some d ∧ d.minioKey = k ∧ pc.doomed = some d.id := by
  cases hcontent with
  | keep hobjects => exact Or.inl (by rw [hobjects])
  | put file hstoring hw =>
    have hne : k ≠ generateMinioKey env file.originalname := by
      rintro rfl
      exact hfresh file hstoring hk
    subst hw
    exact Or.inl (Function.update_of_ne hne _ _)
  | remove d hread hw hheld hread' hdoomed =>
    by_cases hkd : d.minioKey = k
    · exact Or.inr ⟨d, hread, hkd, hdoomed⟩
    · subst hw
      exact Or.inl (Function.update_of_ne (Ne.symm hkd) _ _)
  | publish p id hheld hobjects => exact Or.inl (by rw [hobjects])

include hs hc hcontent hfresh in
/-- A held object stays stored. -/
theorem held_stored_calls {j : ℕ} {op' : Op} {p : String × MulterFile}
    (hop' : s'.ops[j]? = some op') (hp : op'.pc.held = some p) :
    w.objects p.1 = some p.2.object := by
  rcases hc.ops_cases hop' with ⟨rfl, rfl⟩ | ⟨hj, hop'⟩
  · cases hcontent with
    | keep hobjects hputs hpub hheld => rw [hheld] at hp; cases hp
    | put file hstoring hw hheld =>
      rw [hheld] at hp
      cases hp
      subst hw
      exact Function.update_self _ _ _
    | remove d hread hw hheld =>
      rw [hheld] at hp
      obtain ⟨-, hobj, hpub⟩ := hs.held_stored _ op p hc.op_eq hp
      have hne : p.1 ≠ d.minioKey := fun heq =>
        hpub (heq ▸ List.mem_map_of_mem (hs.read_published _ op d hc.op_eq hread))
      subst hw
      exact (Function.update_of_ne hne _ _).trans hobj
    | publish p id hheld hobjects hputs hpub hheld' => rw [hheld'] at hp; cases hp
  · obtain ⟨hput, hobj, hpub⟩ := hs.held_stored j op' p hop' hp
    rcases hcontent.objects hfresh (List.mem_map_of_mem hput) with heq | ⟨d, hread, hd, -⟩
    · rw [heq, hobj]
    · refine absurd ?_ hpub
      exact hd ▸ List.mem_map_of_mem (hs.read_published i op d hc.op_eq hread)

omit hs hcontent hfresh in
include hc in
/-- A row that was charged to another request still is. -/
theorem doomed_calls {id : String} (hi : op.pc.doomed ≠ some id)
    (h : ∃ (j : ℕ) (op : Op), s.ops[j]? = some op ∧ op.pc.doomed = some id) :
    ∃ (j : ℕ) (op : Op), s'.ops[j]? = some op ∧ op.pc.doomed = some id := by
  obtain ⟨j, op', hop', hdoom⟩ := h
  have hj : j ≠ i := by
    rintro rfl
    rw [hc.op_eq] at hop'
    cases hop'
    exact hi hdoom
  exact ⟨j, op', hc.ops_ne hj hop', hdoom⟩

include hs hc hcontent hfresh in
/-- A row whose key and file stay as they were, if the request was not about to change it. -/
theorem row_charged_calls {d d' : KnowledgeDoc} (hd : d ∈ s.world.docs.rows)
    (hi : op.pc.doomed ≠ some d.id) (hid : d'.id = d.id) (hkey : d'.minioKey = d.minioKey)
    (hdesc' : ∀ file, Describes cfg d file → Describes cfg d' file) :
    ∃ file, (d'.minioKey, file) ∈ w.puts ∧ Describes cfg d' file ∧
      (w.objects d'.minioKey = some file.object ∨
        ∃ (j : ℕ) (op : Op), s'.ops[j]? = some op ∧ op.pc.doomed = some d'.id) := by
  obtain ⟨file, hput, hdesc, hobj⟩ := hs.row_charged d hd
  rw [hid, hkey]
  refine ⟨file, hc.advance.keys.puts_subset hput, hdesc' file hdesc, ?_⟩
  rcases hobj with hobj | hdoom
  · rcases hcontent.objects hfresh (List.mem_map_of_mem hput) with heq | ⟨d₀, hread, hk, hdoom⟩
    · exact Or.inl (heq.trans hobj)
    · -- the request has deleted the object of this very row
      have hpub := hs.read_published i op d₀ hc.op_eq hread
      have hpair : (d₀.minioKey, d₀.id) = (d.minioKey, d.id) :=
        List.inj_on_of_nodup_map hs.published_nodup hpub (hs.row_published d hd) hk
      exact Or.inr ⟨i, _, hc.ops_self, hdoom.trans (congrArg (some ∘ Prod.snd) hpair)⟩
  · exact Or.inr (doomed_calls hc hi hdoom)

end Calls

/-- A row that the step writes names an object that the request held. -/
theorem row_charged_step (hs : Accounted cfg s) (hc : Calls cfg s s' i env op w pc)
    (hfail : OnlyPushFails env op.pc)
    (hfresh : ∀ file, op.pc.storing = some file →
      generateMinioKey env file.originalname ∉ s.world.puts.map Prod.fst) {d : KnowledgeDoc}
    (hd : d ∈ w.docs.rows) :
    ∃ file, (d.minioKey, file) ∈ w.puts ∧ Describes cfg d file ∧
      (w.objects d.minioKey = some file.object ∨
        ∃ (j : ℕ) (op : Op), s'.ops[j]? = some op ∧ op.pc.doomed = some d.id) := by
  have hcontent := hc.advance.content hfail
  have hheld : ∀ p, op.pc.held = some p → op.pc.storing = none → op.pc.read = none →
      p ∈ w.puts ∧ w.objects p.1 = some p.2.object := by
    intro p hp hstoring hread
    obtain ⟨hput, hobj, -⟩ := hs.held_stored i op p hc.op_eq hp
    refine ⟨hc.advance.keys.puts_subset hput, ?_⟩
    rcases hcontent.objects hfresh (List.mem_map_of_mem hput) with heq | ⟨d, hd, -⟩
    · exact heq.trans hobj
    · rw [hread] at hd
      cases hd
  have hrow := hc.advance.row hd
  generalize hpc : op.pc = pc₀ at hrow
  cases hrow with
  | same _ _ hd₀ hlog =>
    have hi := hc.advance.doomed_gone hfail hs.chunks hd₀ hlog
    exact row_charged_calls hs hc hcontent hfresh hd₀ hi rfl rfl fun _ h => h
  | created user file minioKey hno hlog =>
    obtain ⟨hput, hobj⟩ := hheld (minioKey, file) (by rw [hpc]; rfl) (by rw [hpc]; rfl)
      (by rw [hpc]; rfl)
    exact ⟨file, hput, ⟨rfl, rfl, rfl, rfl⟩, Or.inl hobj⟩
  | replaced user title file minioKey d₀ hno hd₀ hlog =>
    obtain ⟨hput, hobj⟩ := hheld (minioKey, file) (by rw [hpc]; rfl) (by rw [hpc]; rfl)
      (by rw [hpc]; rfl)
    exact ⟨file, hput, ⟨rfl, rfl, rfl, rfl⟩, Or.inl hobj⟩
  | dispatched doc rest d₀ hno hd₀ hid hlog =>
    refine row_charged_calls hs hc hcontent hfresh hd₀ ?_ rfl rfl fun _ h => ⟨h.1, h.2, h.3, h.4⟩
    rw [hpc]
    exact nofun
  | answered dto answers metaData d₀ hno hmeta hd₀ hid hlog =>
    refine row_charged_calls hs hc hcontent hfresh hd₀ ?_ rfl rfl fun _ h => ⟨h.1, h.2, h.3, h.4⟩
    rw [hpc]
    exact nofun

theorem accounted_calls (hs : Accounted cfg s) (hc : Calls cfg s s' i env op w pc)
    (hfail : OnlyPushFails env op.pc)
    (hfresh : ∀ file, op.pc.storing = some file →
      generateMinioKey env file.originalname ∉ s.world.puts.map Prod.fst) : Accounted cfg s' := by
  refine .of_keyed (keyed_calls hs.keyed hc hfresh) ?_ ?_ ?_
  · rw [hc.world, hc.advance.vectors]
    exact hs.chunks
  · intro j op' p hop' hp
    rw [hc.world]
    exact held_stored_calls hs hc (hc.advance.content hfail) hfresh hop' hp
  · intro d hd
    rw [hc.world] at hd ⊢
    exact row_charged_step hs hc hfail hfresh hd

theorem accounted_step (hs : Accounted cfg s) (hund : Undisturbed s e)
    (h : step cfg s e = some s') : Accounted cfg s' := by
  rcases step_quiet_or_calls h with hq | ⟨i, env, op, w, pc, rfl, hc⟩
  · exact accounted_quiet hs hq
  · simp only [Undisturbed, s.pc?_of_getElem? hc.op_eq] at hund
    exact accounted_calls hs hc hund.1 hund.2

theorem accounted_boot : Accounted cfg (Sys.boot World.empty) where
  chunks := rfl
  puts_nodup := List.nodup_nil
  published_nodup := List.nodup_nil
  published_put := fun _ hk => absurd hk List.not_mem_nil
  row_published := fun _ hd => absurd hd List.not_mem_nil
  read_published := fun _ _ _ hop => by cases hop
  held_stored := fun _ _ _ hop => by cases hop
  held_apart := fun _ _ _ _ _ _ _ hop => by cases hop
  row_charged := fun _ hd => absurd hd List.not_mem_nil

end Accounted

/-! ### Versions -/

/-- How often the version of a row has been raised since the row was created. -/
def replacements : List Commit → ℕ
  | [] => 0
  | .created _ _ :: _ => 0
  | .replaced _ _ :: log => replacements log + 1
  | .deleted _ :: log => replacements log
  | .dispatched _ :: log => replacements log
  | .webhook _ _ :: log => replacements log

def Versioned (w : World) : Prop :=
  ∀ d ∈ w.docs.rows, d.version = 1 + replacements (w.log d.id)

section Versioned

variable {cfg : Config} {s s' : Sys} {e : Event} {w w' : World} {env : Env} {pc pc' : Pc}

theorem Versioned.advance (hw : Versioned w) (h : Advance cfg w env pc w' pc') :
    Versioned w' := by
  intro d hd
  cases h.row hd with
  | same _ _ hd₀ hlog => rw [hlog]; exact hw d hd₀
  | created user file minioKey hfail hlog =>
    show 1 = 1 + replacements (w'.log env.id)
    rw [hlog, replacements]
  | replaced user title file minioKey d₀ hfail hd₀ hlog =>
    show d₀.version + 1 = 1 + replacements (w'.log d₀.id)
    rw [hlog, replacements, hw d₀ hd₀]
    omega
  | dispatched doc rest d₀ hfail hd₀ hid hlog =>
    show d₀.version = 1 + replacements (w'.log d₀.id)
    rw [hlog, replacements]
    exact hw d₀ hd₀
  | answered dto answers metaData d₀ hfail hmeta hd₀ hid hlog =>
    show d₀.version = 1 + replacements (w'.log d₀.id)
    rw [hlog, replacements]
    exact hw d₀ hd₀

theorem Versioned.step (hs : Versioned s.world) (h : step cfg s e = some s') :
    Versioned s'.world :=
  world_step hs h fun _ _ _ _ _ _ hc => hs.advance hc.advance

end Versioned

/-! ### Quiescence -/

/-- No upload, replacement or deletion has a write ahead of it. -/
def Quiescent (s : Sys) : Prop := ∀ op ∈ s.ops, ¬ op.pc.InFlight

instance (s : Sys) : Decidable (Quiescent s) :=
  inferInstanceAs (Decidable (∀ op ∈ s.ops, _))

/-- Each row names a stored object, describes the one file that was stored under its key, and
counts its replacements. -/
def Intact (cfg : Config) (w : World) : Prop :=
  ∀ d ∈ w.docs.rows,
    (∃ file, (∀ file', (d.minioKey, file') ∈ w.puts ↔ file' = file) ∧
      w.objects d.minioKey = some file.object ∧ Describes cfg d file) ∧
    d.version = 1 + replacements (w.log d.id)

theorem Pc.inFlight_of_doomed {pc : Pc} {id : String} (h : pc.doomed = some id) :
    pc.InFlight := by
  cases pc <;> trivial

theorem intact_of_accounted {cfg : Config} {s : Sys} (hs : Accounted cfg s)
    (hv : Versioned s.world) (hq : Quiescent s) : Intact cfg s.world := by
  intro d hd
  obtain ⟨file, hput, hdesc, hobj⟩ := hs.row_charged d hd
  refine ⟨⟨file, fun file' => ⟨fun hput' => ?_, fun heq => heq ▸ hput⟩, ?_, hdesc⟩, hv d hd⟩
  · have hpair := List.inj_on_of_nodup_map hs.puts_nodup hput' hput rfl
    exact congrArg Prod.snd hpair
  · rcases hobj with hobj | ⟨j, op, hop, hdoom⟩
    · exact hobj
    · exact absurd (Pc.inFlight_of_doomed hdoom) (hq op (List.mem_of_getElem? hop))

/-- **In a run in which nothing fails, except pushes to Redis, and no object key is generated
twice, each row names its content whenever no upload, replacement or deletion is in flight.** -/
theorem intact_of_quiescent (cfg : Config) (es : List Event)
    (hes : Meets (step cfg) Undisturbed (Sys.boot World.empty) es) :
    ∀ s, Visits (step cfg) (Sys.boot World.empty) es s → Quiescent s → Intact cfg s.world := by
  intro s hs hq
  have hacc : Accounted cfg s :=
    invariant_of_meets (fun _ _ _ hs hund hstep => accounted_step hs hund hstep) accounted_boot
      hes s hs
  have hv : Versioned s.world :=
    invariant (fun _ _ _ hs hstep => Versioned.step hs hstep)
      (fun _ hd => absurd hd List.not_mem_nil) hs.reachable
  exact intact_of_accounted hacc hv hq

/-- Two replacements of one document, step by step in turn; both read and delete the first
object. -/
def twoReplacementsRun : List Event :=
  uploadRun ++
    [.request (.replaceFile alice "d0" "second" ⟨"second.txt", "text/plain", [3], 1⟩),
      .request (.replaceFile alice "d0" "third" ⟨"third.txt", "text/plain", [4, 5], 2⟩),
      .resume 2 {}, .resume 3 {}, .resume 2 { uuid := "k1" }, .resume 3 { uuid := "k2" },
      .resume 2 {}, .resume 3 {}, .resume 2 {}, .resume 3 {}]

theorem intact_twoReplacements : ∃ s,
    run (step exampleConfig) (Sys.boot World.empty) twoReplacementsRun = some s ∧
      s.world.docs.rows.map KnowledgeDoc.version = [3] ∧ Intact exampleConfig s.world := by
  have hrun : (run (step exampleConfig) (Sys.boot World.empty) twoReplacementsRun).map
      (fun s => (decide (Quiescent s), s.world.docs.rows.map KnowledgeDoc.version)) =
        some (true, [3]) := by decide
  obtain ⟨s, hs, hlast⟩ := Option.map_eq_some_iff.1 hrun
  obtain ⟨hq, hversion⟩ := Prod.mk.inj hlast
  exact ⟨s, hs, hversion, intact_of_quiescent exampleConfig twoReplacementsRun (by decide) s
    (Visits.of_run hs) (of_decide_eq_true hq)⟩

end ProtostarNest.Knowledge
