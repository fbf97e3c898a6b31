import ProtostarNest.Knowledge.Owners

/-!
# What other users see

Two servers whose databases differ in the contents of one user's rows, and in nothing that other
users' requests read, answer those requests alike.

* `Alike`, `Agree`: the same rows, up to the contents of the user's own;
* `advance_agree`: a call for another user goes the same way on both sides;
* `agree_step`, `agree_run`: so does a step, and a run;
* `protected_of_run`: the requests of others neither change a user's documents nor depend on them.
-/

namespace ProtostarNest.Knowledge

open Transition Queue

/-- The same row, or two versions of a row of the user. -/
def Alike (u : User) (d d₂ : KnowledgeDoc) : Prop :=
  d₂ = d ∨ (d₂.id = d.id ∧ d.uploaderId = u.id ∧ d₂.uploaderId = u.id)

structure Agree (u : User) (w w₂ : World) : Prop where
  rows : List.Forall₂ (Alike u) w.docs.rows w₂.docs.rows
  vectors : w₂.vectors = w.vectors

/-! ### Tables -/

section Tables

variable {u v : User} {t t₂ t' : Table KnowledgeDoc.id} {d : KnowledgeDoc} {id : String}

theorem Alike.id_eq {d d₂ : KnowledgeDoc} (h : Alike u d d₂) : d₂.id = d.id := by
  rcases h with rfl | ⟨hid, -⟩
  · rfl
  · exact hid

theorem ids_of_alike {rows rows₂ : List KnowledgeDoc} (h : List.Forall₂ (Alike u) rows rows₂) :
    rows₂.map KnowledgeDoc.id = rows.map KnowledgeDoc.id := by
  induction h with
  | nil => rfl
  | cons hd _ ih => rw [List.map_cons, List.map_cons, ih, hd.id_eq]

/-- The rows of other users are the same ones. -/
theorem filter_of_alike (hvu : v.id ≠ u.id) {rows rows₂ : List KnowledgeDoc}
    (h : List.Forall₂ (Alike u) rows rows₂) :
    rows₂.filter (fun d => d.uploaderId = v.id) = rows.filter (fun d => d.uploaderId = v.id) := by
  induction h with
  | nil => rfl
  | cons hd _ ih =>
    rcases hd with rfl | ⟨-, hu, hu₂⟩
    · rw [List.filter_cons, List.filter_cons, ih]
    · rw [List.filter_cons_of_neg (by simpa [hu₂] using hvu.symm),
        List.filter_cons_of_neg (by simpa [hu] using hvu.symm), ih]

/-- A row is found in both tables or in neither. -/
theorem findUnique_of_alike (h : List.Forall₂ (Alike u) t.rows t₂.rows) :
    (t.findUnique id = none ∧ t₂.findUnique id = none) ∨
      ∃ d d₂, t.findUnique id = some d ∧ t₂.findUnique id = some d₂ ∧ Alike u d d₂ := by
  unfold Table.findUnique
  generalize t.rows = rows at h
  generalize t₂.rows = rows₂ at h
  induction h with
  | nil => exact Or.inl ⟨rfl, rfl⟩
  | @cons d d₂ rows rows₂ hd _ ih =>
    by_cases hfound : d.id = id
    · refine Or.inr ⟨d, d₂, ?_, ?_, hd⟩
      · exact List.find?_cons_of_pos (decide_eq_true hfound)
      · exact List.find?_cons_of_pos (decide_eq_true (hd.id_eq.trans hfound))
    · rw [List.find?_cons_of_neg (by simpa using hfound),
        List.find?_cons_of_neg (by simpa [hd.id_eq] using hfound)]
      exact ih

theorem create_of_alike (h : List.Forall₂ (Alike u) t.rows t₂.rows)
    (hcreate : t.create d = some t') :
    ∃ t₂', t₂.create d = some t₂' ∧ List.Forall₂ (Alike u) t'.rows t₂'.rows := by
  obtain ⟨hnew, hrows⟩ := Table.create_eq_some.1 hcreate
  cases hcreate₂ : t₂.create d with
  | none => exact absurd (Table.create_eq_none.1 hcreate₂) (by rw [ids_of_alike h]; exact hnew)
  | some t₂' =>
    refine ⟨t₂', rfl, ?_⟩
    rw [hrows, (Table.create_eq_some.1 hcreate₂).2]
    exact List.rel_append h (.cons (Or.inl rfl) .nil)

variable {f : KnowledgeDoc → KnowledgeDoc} {hf : ∀ d, (f d).id = d.id}

/-- An update of a row that is not the user's. -/
theorem update_of_alike (h : List.Forall₂ (Alike u) t.rows t₂.rows) (hvu : v.id ≠ u.id)
    (howner : ∀ d ∈ t.rows, d.id = id → d.uploaderId = v.id)
    (hupdate : t.update id f hf = some t') :
    ∃ t₂', t₂.update id f hf = some t₂' ∧ List.Forall₂ (Alike u) t'.rows t₂'.rows := by
  obtain ⟨hmem, hrows⟩ := Table.update_eq_some.1 hupdate
  cases hupdate₂ : t₂.update id f hf with
  | none => exact absurd hmem (by rw [← ids_of_alike h]; exact Table.update_eq_none.1 hupdate₂)
  | some t₂' =>
    refine ⟨t₂', rfl, ?_⟩
    rw [hrows, (Table.update_eq_some.1 hupdate₂).2]
    clear hupdate hupdate₂ hrows hmem
    generalize t.rows = rows at h howner
    generalize t₂.rows = rows₂ at h
    induction h with
    | nil => exact .nil
    | @cons d d₂ rows rows₂ hd _ ih =>
      refine .cons ?_ (ih fun d' hd' => howner d' (List.mem_cons_of_mem _ hd'))
      rcases hd with rfl | ⟨hid, hu, hu₂⟩
      · exact Or.inl rfl
      · -- a row of the user has another id
        have hne : d.id ≠ id := fun heq =>
          hvu ((howner d List.mem_cons_self heq).symm.trans hu)
        have hne₂ : d₂.id ≠ id := hid ▸ hne
        simp only [if_neg hne, if_neg hne₂]
        exact Or.inr ⟨hid, hu, hu₂⟩

theorem delete_of_alike (h : List.Forall₂ (Alike u) t.rows t₂.rows)
    (hdelete : t.delete id = some t') :
    ∃ t₂', t₂.delete id = some t₂' ∧ List.Forall₂ (Alike u) t'.rows t₂'.rows := by
  obtain ⟨hmem, hrows⟩ := Table.delete_eq_some.1 hdelete
  cases hdelete₂ : t₂.delete id with
  | none => exact absurd hmem (by rw [← ids_of_alike h]; exact Table.delete_eq_none.1 hdelete₂)
  | some t₂' =>
    refine ⟨t₂', rfl, ?_⟩
    rw [hrows, (Table.delete_eq_some.1 hdelete₂).2]
    clear hdelete hdelete₂ hrows hmem
    generalize t.rows = rows at h
    generalize t₂.rows = rows₂ at h
    induction h with
    | nil => exact .nil
    | @cons d d₂ rows rows₂ hd _ ih =>
      by_cases hk : d.id = id
      · rw [List.filter_cons_of_neg (by simpa using hk),
          List.filter_cons_of_neg (by simpa [hd.id_eq] using hk)]
        exact ih
      · rw [List.filter_cons_of_pos (by simpa using hk),
          List.filter_cons_of_pos (by simpa [hd.id_eq] using hk)]
        exact .cons hd ih

end Tables

/-! ### Calls -/

section Advance

variable {cfg : Config} {w w₂ w' : World} {env : Env} {pc pc' : Pc} {u v : User}

theorem Agree.count (h : Agree u w w₂) (hvu : v.id ≠ u.id) : w₂.count v.id = w.count v.id := by
  rw [World.count, World.count, List.countP_eq_length_filter, List.countP_eq_length_filter,
    filter_of_alike hvu h.rows]

theorem Agree.isFindAll (h : Agree u w w₂) (hvu : v.id ≠ u.id) {rows : List KnowledgeDoc} :
    IsFindAll w₂ v rows ↔ IsFindAll w v rows := by
  rw [IsFindAll, IsFindAll, World.IsAnswer, World.IsAnswer, filter_of_alike hvu h.rows]

/-- A lookup for another user: the row is missing, not the caller's, or the same. -/
theorem Agree.findUnique (h : Agree u w w₂) (hvu : v.id ≠ u.id) (id : String) :
    (w.docs.findUnique id = none ∧ w₂.docs.findUnique id = none) ∨
      (∃ d d₂, w.docs.findUnique id = some d ∧ w₂.docs.findUnique id = some d₂ ∧
        d.uploaderId ≠ v.id ∧ d₂.uploaderId ≠ v.id) ∨
      ∃ d, w.docs.findUnique id = some d ∧ w₂.docs.findUnique id = some d := by
  rcases findUnique_of_alike h.rows with hnone | ⟨d, d₂, hd, hd₂, rfl | ⟨-, hu, hu₂⟩⟩
  · exact Or.inl hnone
  · exact Or.inr (Or.inr ⟨d₂, hd, hd₂⟩)
  · exact Or.inr (Or.inl ⟨d, d₂, hd, hd₂, hu ▸ hvu.symm, hu₂ ▸ hvu.symm⟩)

/-- The outcomes of a call on both sides: the same failure, or stores that agree again. -/
inductive Both (u : User) : Except Exception World → Except Exception World → Prop
  | error (e : Exception) : Both u (.error e) (.error e)
  | ok (w w₂ : World) (h : Agree u w w₂) : Both u (.ok w) (.ok w₂)

theorem Agree.uploadFile (h : Agree u w w₂) (file : MulterFile) (k : String) :
    Both u (w.uploadFile env file k) (w₂.uploadFile env file k) := by
  unfold World.uploadFile
  split
  · exact .error _
  · exact .ok _ _ ⟨h.rows, h.vectors⟩

theorem Agree.deleteFile (h : Agree u w w₂) (k : String) :
    Both u (w.deleteFile env k) (w₂.deleteFile env k) := by
  unfold World.deleteFile
  split
  · exact .error _
  · exact .ok _ _ ⟨h.rows, h.vectors⟩

theorem Agree.create (h : Agree u w w₂) (doc : KnowledgeDoc) :
    Both u (w.create env doc) (w₂.create env doc) := by
  unfold World.create
  split
  · exact .error _
  · cases hcreate : w.docs.create doc with
    | none =>
      have hcreate₂ : w₂.docs.create doc = none := by
        rw [Table.create_eq_none, ids_of_alike h.rows]
        exact Table.create_eq_none.1 hcreate
      rw [hcreate₂]
      exact .error _
    | some docs =>
      obtain ⟨docs₂, hcreate₂, hrows⟩ := create_of_alike h.rows hcreate
      rw [hcreate₂]
      exact .ok _ _ ⟨hrows, h.vectors⟩

theorem Agree.update (h : Agree u w w₂) (hvu : v.id ≠ u.id) {id : String}
    (howner : ∀ d ∈ w.docs.rows, d.id = id → d.uploaderId = v.id)
    (data : KnowledgeDoc → KnowledgeDoc) (hid : ∀ d, (data d).id = d.id) (c : Commit) :
    Both u (w.update env id data hid c) (w₂.update env id data hid c) := by
  unfold World.update
  split
  · exact .error _
  · cases hupdate : w.docs.update id data hid with
    | none =>
      have hupdate₂ : w₂.docs.update id data hid = none := by
        rw [Table.update_eq_none, ids_of_alike h.rows]
        exact Table.update_eq_none.1 hupdate
      rw [hupdate₂]
      exact .error _
    | some docs =>
      obtain ⟨docs₂, hupdate₂, hrows⟩ := update_of_alike h.rows hvu howner hupdate
      rw [hupdate₂]
      exact .ok _ _ ⟨hrows, h.vectors⟩

theorem Agree.delete (h : Agree u w w₂) (id : String) :
    Both u (w.delete env id) (w₂.delete env id) := by
  unfold World.delete
  rw [h.vectors]
  split
  · exact .error _
  · split_ifs
    · exact .error _
    · cases hdelete : w.docs.delete id with
      | none =>
        have hdelete₂ : w₂.docs.delete id = none := by
          rw [Table.delete_eq_none, ids_of_alike h.rows]
          exact Table.delete_eq_none.1 hdelete
        rw [hdelete₂]
        exact .error _
      | some docs =>
        obtain ⟨docs₂, hdelete₂, hrows⟩ := delete_of_alike h.rows hdelete
        rw [hdelete₂]
        exact .ok _ _ ⟨hrows, h.vectors⟩

/-- How a request goes on after a call that writes. -/
def proceed (w : World) (failed : Exception → Pc) (next : Pc) :
    Except Exception World → Option (World × Pc)
  | .error e => some (w, failed e)
  | .ok w' => some (w', next)

/-- It goes on the same way on both sides. -/
theorem Both.next {r r₂ : Except Exception World} (h : Both u r r₂) (hagree : Agree u w w₂)
    (failed : Exception → Pc) (next : Pc) (hr : proceed w failed next r = some (w', pc')) :
    ∃ w₂', proceed w₂ failed next r₂ = some (w₂', pc') ∧ Agree u w' w₂' := by
  cases h with
  | error e =>
    obtain ⟨rfl, rfl⟩ := Prod.mk.inj (Option.some.inj hr)
    exact ⟨w₂, rfl, hagree⟩
  | ok x x₂ hagree' =>
    obtain ⟨rfl, rfl⟩ := Prod.mk.inj (Option.some.inj hr)
    exact ⟨x₂, rfl, hagree'⟩

/-- How a request goes on after looking up the row that it is about. -/
def lookup (w : World) (env : Env) (user : User) (id : String) (unauthorized : Exception)
    (next : KnowledgeDoc → Pc) : Option (World × Pc) :=
  match env.fail with
  | some e => some (w, .throw (.Error e))
  | none =>
      match w.docs.findUnique id with
      | none => some (w, .throw (.NotFoundException "Document not found"))
      | some doc =>
          if doc.uploaderId ≠ user.id then some (w, .throw unauthorized) else some (w, next doc)

/-- A lookup for another user ends the same way on both sides. -/
theorem Agree.lookup (h : Agree u w w₂) (hvu : v.id ≠ u.id) (id : String) (unauthorized : Exception)
    (next : KnowledgeDoc → Pc)
    (hr : Knowledge.lookup w env v id unauthorized next = some (w', pc')) :
    ∃ w₂', Knowledge.lookup w₂ env v id unauthorized next = some (w₂', pc') ∧ Agree u w' w₂' := by
  unfold Knowledge.lookup at hr ⊢
  split at hr
  · obtain ⟨rfl, rfl⟩ := Prod.mk.inj (Option.some.inj hr)
    exact ⟨w₂, rfl, h⟩
  · rcases h.findUnique hvu id with ⟨hd, hd₂⟩ | ⟨d, d₂, hd, hd₂, hno, hno₂⟩ | ⟨d, hd, hd₂⟩
    · simp only [hd, hd₂] at hr ⊢
      obtain ⟨rfl, rfl⟩ := Prod.mk.inj (Option.some.inj hr)
      exact ⟨w₂, rfl, h⟩
    · simp only [hd, hd₂, if_pos hno, if_pos hno₂] at hr ⊢
      obtain ⟨rfl, rfl⟩ := Prod.mk.inj (Option.some.inj hr)
      exact ⟨w₂, rfl, h⟩
    · simp only [hd, hd₂] at hr ⊢
      split_ifs at hr ⊢ <;> obtain ⟨rfl, rfl⟩ := Prod.mk.inj (Option.some.inj hr) <;>
        exact ⟨w₂, rfl, h⟩

/-- A call for another user goes the same way on both sides. -/
theorem advance_agree (hagree : Agree u w w₂) (hv : pc.user = some v) (hvu : v.id ≠ u.id)
    (howner : ∀ id, pc.claims = some (v, id) → ∀ d ∈ w.docs.rows, d.id = id → d.uploaderId = v.id)
    (h : advance cfg w env pc = some (w', pc')) :
    ∃ w₂', advance cfg w₂ env pc = some (w₂', pc') ∧ Agree u w' w₂' := by
  cases pc with
  | uploadCount user files =>
    cases hv
    simp only [advance, hagree.count hvu] at h ⊢
    split at h <;> obtain ⟨rfl, rfl⟩ := Prod.mk.inj (Option.some.inj h)
    · exact ⟨w₂, rfl, hagree⟩
    · exact ⟨w₂, rfl, hagree⟩
  | uploadAdmit user files currentCount => cases h
  | uploadJoin user tasks => cases h
  | processPut user file => exact (hagree.uploadFile file _).next hagree _ _ h
  | processCreate user file minioKey => exact (hagree.create _).next hagree _ _ h
  | replaceFind user id title file =>
    cases hv
    exact hagree.lookup hvu id (.ForbiddenException "Unauthorized") (.replacePut v title file) h
  | replacePut user title file doc => exact (hagree.uploadFile file _).next hagree _ _ h
  | replaceDeleteOld user title file doc minioKey =>
    exact (hagree.deleteFile doc.minioKey).next hagree _ _ h
  | replaceUpdate user id title file minioKey =>
    cases hv
    exact (hagree.update hvu (howner id rfl) _ _ _).next hagree _ _ h
  | deleteFind user id =>
    cases hv
    exact hagree.lookup hvu id (.BadRequestException "Unauthorized") (.deleteObject v) h
  | deleteObject user doc => exact (hagree.deleteFile doc.minioKey).next hagree _ _ h
  | deleteRow user id => exact (hagree.delete id).next hagree _ _ h
  | findAll user =>
    cases hv
    simp only [advance, hagree.isFindAll hvu] at h ⊢
    split at h
    · obtain ⟨rfl, rfl⟩ := Prod.mk.inj (Option.some.inj h)
      exact ⟨w₂, rfl, hagree⟩
    · split_ifs at h ⊢
      obtain ⟨rfl, rfl⟩ := Prod.mk.inj (Option.some.inj h)
      exact ⟨w₂, rfl, hagree⟩
  | formatCount user docs =>
    cases hv
    simp only [advance, hagree.count hvu] at h ⊢
    split at h <;> obtain ⟨rfl, rfl⟩ := Prod.mk.inj (Option.some.inj h)
    · exact ⟨w₂, rfl, hagree⟩
    · exact ⟨w₂, rfl, hagree⟩
  | dispatchFind | dispatchPush | dispatchUpdate | webhookUpdate | done => cases hv

end Advance

/-! ### Steps and runs -/

namespace Sys

/-- The same requests on other stores. -/
def withWorld (s : Sys) (w : World) : Sys := { s with world := w }

variable (s : Sys) (w : World)

theorem add_withWorld (pc : Pc) : (s.withWorld w).add pc = (s.add pc).withWorld w := by
  unfold add withWorld
  split <;> simp_all [spawn]

theorem addAll_withWorld (user : User) (files : List MulterFile) :
    (s.withWorld w).addAll user files = (s.addAll user files).withWorld w := by
  induction files generalizing s with
  | nil => rfl
  | cons file files ih => rw [addAll, add_withWorld, ih, addAll]

theorem accept_withWorld (i : ℕ) (op : Op) (user : User) (files : List MulterFile)
    (currentCount : ℕ) : (s.withWorld w).accept i op user files currentCount =
      (s.accept i op user files currentCount).withWorld w := by
  unfold accept
  split_ifs
  · rfl
  · rw [addAll_withWorld]
    rfl

end Sys

section Run

variable {cfg : Config} {s s' t : Sys} {e : Event} {es : List Event} {u : User} {w₂ : World}

theorem agree_step (hs : Owned s) (hother : ByOthers u s e) (hagree : Agree u s.world w₂)
    (h : step cfg s e = some s') :
    ∃ w₂', step cfg (s.withWorld w₂) e = some (s'.withWorld w₂') ∧ Agree u s'.world w₂' := by
  cases e with
  | request r =>
    cases r with
    | replaceFile user id title file =>
      obtain rfl := Option.some.inj h
      exact ⟨w₂, congrArg some (s.add_withWorld w₂ _), by rw [add_world]; exact hagree⟩
    | uploadFiles | deleteFile | findAll =>
      obtain rfl := Option.some.inj h
      exact ⟨w₂, rfl, hagree⟩
    | dispatchPendingTasks | updateDocStatusViaWebhook =>
      obtain ⟨v, hv, -⟩ := hother
      cases hv
  | resume i env =>
    obtain ⟨hwait, op, hop, hres⟩ := step_resume_iff.1 h
    cases hres with
    | accepted user files currentCount hpc =>
      refine ⟨w₂, step_resume_iff.2 ⟨hwait, op, hop, ?_⟩, ?_⟩
      · rw [← Sys.accept_withWorld]
        exact .accepted user files currentCount hpc
      · unfold Sys.accept
        split_ifs
        · exact hagree
        · exact (addAll_world user files).symm ▸ hagree
    | joined user tasks result hpc hresult =>
      exact ⟨w₂, step_resume_iff.2 ⟨hwait, op, hop, .joined user tasks result hpc hresult⟩, hagree⟩
    | released result hpc hqueued =>
      exact ⟨w₂, step_resume_iff.2 ⟨hwait, op, hop, .released result hpc hqueued⟩, hagree⟩
    | called w pc hcall hadv =>
      obtain ⟨v, hv, hvu⟩ : ∃ v, op.pc.user = some v ∧ v.id ≠ u.id := by
        rcases hother op.pc (s.pc?_of_getElem? hop) with hans | hother
        · cases hpc : op.pc <;> rw [hpc] at hans hcall <;>
            first | exact hans.elim | exact hcall.elim
        · exact hother
      obtain ⟨w₂', hadv₂, hagree'⟩ := advance_agree hagree hv hvu
        (fun id hclaim => (hs.claims i op v id hop hclaim).2) hadv
      exact ⟨w₂', step_resume_iff.2 ⟨hwait, op, hop, .called w₂' pc hcall hadv₂⟩, hagree'⟩

theorem agree_run (hs : Keyed s ∧ Owned s) (hfresh : Meets (step cfg) Unrepeated s es)
    (hothers : Meets (step cfg) (ByOthers u) s es) (hagree : Agree u s.world w₂)
    (h : run (step cfg) s es = some t) :
    ∃ w₂', run (step cfg) (s.withWorld w₂) es = some (t.withWorld w₂') ∧
      Agree u t.world w₂' := by
  induction es generalizing s w₂ with
  | nil => cases h; exact ⟨w₂, rfl, hagree⟩
  | cons e es ih =>
    obtain ⟨s₁, hs₁, h⟩ := (run_cons_eq_some _).1 h
    obtain ⟨hfresh₁, hfresh⟩ := hfresh s₁ hs₁
    obtain ⟨hother, hothers⟩ := hothers s₁ hs₁
    obtain ⟨w₁, hstep, hagree₁⟩ := agree_step hs.2 hother hagree hs₁
    obtain ⟨w₂', hrun, hagree'⟩ :=
      ih (keyed_owned_step hs hfresh₁ hs₁) hfresh hothers hagree₁ h
    exact ⟨w₂', (run_cons_some _ es hstep).trans hrun, hagree'⟩

/-- The documents of `u` are as they were, no row has changed hands, and whatever the documents of
`u` contain, the requests of the run are answered alike. -/
structure Protected (cfg : Config) (u : User) (s : Sys) (es : List Event) (t : Sys) : Prop where
  rows : t.world.rowsOf u = s.world.rowsOf u
  objects : ∀ d ∈ s.world.rowsOf u, t.world.objects d.minioKey = s.world.objects d.minioKey
  owners : ∀ d ∈ s.world.docs.rows, ∀ d' ∈ t.world.docs.rows, d'.id = d.id →
    d'.uploaderId = d.uploaderId
  unseen : ∀ w₂, Agree u s.world w₂ →
    ∃ t₂, run (step cfg) (s.withWorld w₂) es = some t₂ ∧ t₂.ops = t.ops

/-- **Whatever others do, and whatever fails, the documents of a user stay as they are, and
others' requests are answered as if the documents were any others.** -/
theorem protected_of_run (cfg : Config) (u : User) (es₀ es : List Event) (s t : Sys)
    (h₀ : run (step cfg) (Sys.boot World.empty) es₀ = some s) (h : run (step cfg) s es = some t)
    (hfresh : Meets (step cfg) Unrepeated (Sys.boot World.empty) (es₀ ++ es))
    (hothers : Meets (step cfg) (ByOthers u) s es) : Protected cfg u s es t := by
  have hs : Keyed s ∧ Owned s :=
    invariant_of_meets (fun _ _ _ hs hC hstep => keyed_owned_step hs hC hstep)
      ⟨keyed_boot, owned_boot⟩ hfresh.of_append s (Visits.of_run h₀)
  have hrest : Meets (step cfg) Unrepeated s es := hfresh.of_run h₀
  have hkept := kept_run hs hrest hothers h
  refine ⟨hkept.rows, hkept.objects, fun d hd d' hd' hid => ?_, fun w₂ hagree => ?_⟩
  · rcases hkept.owners d' hd' with ⟨d₀, hd₀, hid₀, howner⟩ | hnew
    · rw [← howner, Table.eq_of_key hd₀ hd (hid₀.trans hid)]
    · exact absurd (hid ▸ hs.2.row_created d hd) hnew
  · obtain ⟨w₂', hrun, -⟩ := agree_run hs hrest hothers hagree h
    exact ⟨_, hrun, rfl⟩

end Run

/-! Another user tries to replace and to delete the uploaded document, and uploads one. -/

def bob : User := ⟨"bob"⟩

def strangerRun : List Event :=
  [.request (.replaceFile bob "d0" "mine" exampleFile), .resume 2 {},
    .request (.deleteFile bob "d0"), .resume 3 {},
    .request (.uploadFiles bob [exampleFile]), .resume 4 {}, .resume 4 {},
    .resume 5 { uuid := "k1" }, .resume 5 { id := "d1" }, .resume 5 {}, .resume 4 {},
    .resume 4 {}]

theorem protected_strangerRun : ∃ s t,
    run (step exampleConfig) (Sys.boot World.empty) uploadRun = some s ∧
      run (step exampleConfig) s strangerRun = some t ∧
      t.world.docs.rows.map KnowledgeDoc.uploaderId = ["alice", "bob"] ∧
      Protected exampleConfig alice s strangerRun t := by
  obtain ⟨s, h₀, hothers, t, h, howners⟩ : ∃ s,
      run (step exampleConfig) (Sys.boot World.empty) uploadRun = some s ∧
        Meets (step exampleConfig) (ByOthers alice) s strangerRun ∧
        ∃ t, run (step exampleConfig) s strangerRun = some t ∧
          t.world.docs.rows.map KnowledgeDoc.uploaderId = ["alice", "bob"] :=
    ⟨_, rfl, by decide, _, rfl, by decide⟩
  exact ⟨s, t, h₀, h, howners, protected_of_run exampleConfig alice uploadRun strangerRun s t h₀ h
    (by decide) hothers⟩

end ProtostarNest.Knowledge
