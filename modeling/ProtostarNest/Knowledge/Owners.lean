import ProtostarNest.Knowledge.Keys

/-!
# Owners

A replacement or a deletion compares the owner of the row with the caller once, on the row that it
has read, and its later calls use only the id and the key from there.  Ids and keys are never
repeated, so what belonged to the caller then belongs to nobody else later.

* `Pc.user`, `Pc.claims`: for whom a request works, and the row for which it has passed the
  check;
* `Owned`: a claimed row, as long as it is there, belongs to the user of the request;
* `Kept`: a user's rows and their objects are as they were, and no row changes hands;
* `kept_step`: each step of a request of another user keeps them.
-/

namespace ProtostarNest.Knowledge

open Transition Queue

namespace Pc

/-- For whom the request works, until it is answered. -/
def user : Pc → Option User
  | .uploadCount user _ => some user
  | .uploadAdmit user _ _ => some user
  | .uploadJoin user _ => some user
  | .processPut user _ => some user
  | .processCreate user _ _ => some user
  | .replaceFind user _ _ _ => some user
  | .replacePut user _ _ _ => some user
  | .replaceDeleteOld user _ _ _ _ => some user
  | .replaceUpdate user _ _ _ _ => some user
  | .deleteFind user _ => some user
  | .deleteObject user _ => some user
  | .deleteRow user _ => some user
  | .findAll user => some user
  | .formatCount user _ => some user
  | .dispatchFind => none
  | .dispatchPush _ _ => none
  | .dispatchUpdate _ _ => none
  | .webhookUpdate _ _ => none
  | .done _ => none

/-- The row that the request has found to be the caller's. -/
def claims : Pc → Option (User × String)
  | .replacePut user _ _ doc => some (user, doc.id)
  | .replaceDeleteOld user _ _ doc _ => some (user, doc.id)
  | .replaceUpdate user id _ _ _ => some (user, id)
  | .deleteObject user doc => some (user, doc.id)
  | .deleteRow user id => some (user, id)
  | _ => none

/-- The id of the row that the step creates. -/
def newId (env : Env) : Pc → Option String
  | .processCreate _ _ _ => some env.id
  | _ => none

theorem claims_of_read {pc : Pc} {d : KnowledgeDoc} {v : User} (h : pc.read = some d)
    (hv : pc.user = some v) : pc.claims = some (v, d.id) := by
  cases pc with
  | replacePut | replaceDeleteOld | deleteObject => cases h; cases hv; rfl
  | _ => cases h

theorem Idle.claims {pc : Pc} (h : pc.Idle) : pc.claims = none := by
  cases pc <;> first | rfl | exact h.elim

theorem claims_dispatchNext (docs : List KnowledgeDoc) : (dispatchNext docs).claims = none := by
  cases docs <;> rfl

end Pc

/-- The ids of all rows that have been created. -/
def World.createdIds (w : World) : List String :=
  w.history.filterMap fun
    | .created id _ => some id
    | _ => none

section Advance

variable {cfg : Config} {w w' : World} {env : Env} {pc pc' : Pc}

theorem Advance.createdIds_subset (h : Advance cfg w env pc w' pc') :
    w.createdIds ⊆ w'.createdIds := by
  cases h with
  | created user file minioKey docs hfail hdocs => exact List.subset_cons_self _ _
  | _ => exact List.Subset.refl _

/-- Each row is a new one, or one with its id and its owner was there. -/
theorem Advance.row_owner (h : Advance cfg w env pc w' pc') {d : KnowledgeDoc}
    (hd : d ∈ w'.docs.rows) :
    (∃ d₀ ∈ w.docs.rows, d₀.id = d.id ∧ d₀.uploaderId = d.uploaderId) ∨
      (pc.newId env = some d.id ∧ d.id ∈ w'.createdIds) := by
  cases h.row hd with
  | same _ _ hd₀ hlog => exact Or.inl ⟨d, hd₀, rfl, rfl⟩
  | created user file minioKey hfail hlog =>
    refine Or.inr ⟨rfl, List.mem_filterMap.2 ⟨.created env.id minioKey, ?_, rfl⟩⟩
    have hmem : Commit.created env.id minioKey ∈ w'.log env.id := hlog ▸ List.mem_cons_self
    exact (List.mem_filter.1 hmem).1
  | replaced user title file minioKey d₀ hfail hd₀ hlog => exact Or.inl ⟨d₀, hd₀, rfl, rfl⟩
  | dispatched doc rest d₀ hfail hd₀ hid hlog => exact Or.inl ⟨d₀, hd₀, rfl, rfl⟩
  | answered dto answers metaData d₀ hfail hmeta hd₀ hid hlog =>
    exact Or.inl ⟨d₀, hd₀, rfl, rfl⟩

/-- A claim is handed on, or it comes from the row that the request has just read. -/
theorem Advance.claims (h : Advance cfg w env pc w' pc') {v : User} {id : String}
    (hc : pc'.claims = some (v, id)) :
    pc.claims = some (v, id) ∨ ∃ d ∈ w.docs.rows, d.id = id ∧ d.uploaderId = v.id := by
  have hnext : ∀ docs, (Pc.dispatchNext docs).claims ≠ some (v, id) := by
    intro docs hd
    rw [Pc.claims_dispatchNext] at hd
    cases hd
  cases h with
  | replaceFound user title file doc hdoc howner =>
    cases hc
    exact Or.inr ⟨doc, hdoc, rfl, howner⟩
  | deleteFound user doc hdoc howner =>
    cases hc
    exact Or.inr ⟨doc, hdoc, rfl, howner⟩
  | replaceStored | oldDeleted | oldKept | objectDeleted | objectKept => exact Or.inl hc
  | selected horder => exact absurd hc (hnext _)
  | pushFailed doc rest hfail => exact absurd hc (hnext _)
  | marked doc rest docs hfail hdocs => exact absurd hc (hnext _)
  | markFailed doc rest hfail => exact absurd hc (hnext _)
  | _ => cases hc

end Advance

/-! ### The invariant -/

structure Owned (s : Sys) : Prop where
  row_created : ∀ d ∈ s.world.docs.rows, d.id ∈ s.world.createdIds
  claims : ∀ (j : ℕ) (op : Op) (v : User) (id : String), s.ops[j]? = some op →
    op.pc.claims = some (v, id) →
      id ∈ s.world.createdIds ∧ ∀ d ∈ s.world.docs.rows, d.id = id → d.uploaderId = v.id

/-- No id of a row is generated twice. -/
def FreshId (s : Sys) : Event → Prop
  | .resume i env => ∀ pc ∈ s.pc? i, ∀ id ∈ pc.newId env, id ∉ s.world.createdIds
  | .request _ => True

/-- Neither an object key nor an id is generated twice. -/
def Unrepeated (s : Sys) (e : Event) : Prop := FreshKey s e ∧ FreshId s e

section Owned

variable {cfg : Config} {s s' : Sys} {e : Event}

theorem Owned.step (hs : Owned s) (hfresh : FreshId s e) (h : step cfg s e = some s') :
    Owned s' := by
  rcases step_quiet_or_calls h with hq | ⟨i, env, op, w, pc, rfl, hc⟩
  · refine ⟨?_, fun j op v id hop hclaim => ?_⟩
    · rw [hq.world]
      exact hs.row_created
    · rw [hq.world]
      rcases hq.old_or_idle j op hop with hold | ⟨hidle, -⟩
      · exact hs.claims j op v id hold hclaim
      · rw [hidle.claims] at hclaim
        cases hclaim
  · have hsub := hc.advance.createdIds_subset
    have hnew : ∀ id, op.pc.newId env = some id → id ∉ s.world.createdIds :=
      hfresh op.pc (s.pc?_of_getElem? hc.op_eq)
    refine ⟨fun d hd => ?_, fun j op' v id hop' hclaim => ?_⟩
    · rw [hc.world] at hd ⊢
      rcases hc.advance.row_owner hd with ⟨d₀, hd₀, hid, -⟩ | ⟨-, hmem⟩
      · exact hid ▸ hsub (hs.row_created d₀ hd₀)
      · exact hmem
    · rw [hc.world]
      -- the claim held before the step, of this request or of the row that it has read
      have hbefore : id ∈ s.world.createdIds ∧
          ∀ d ∈ s.world.docs.rows, d.id = id → d.uploaderId = v.id := by
        rcases hc.ops_cases hop' with ⟨rfl, rfl⟩ | ⟨hj, hold⟩
        · rcases hc.advance.claims hclaim with hclaim | ⟨d, hd, rfl, howner⟩
          · exact hs.claims _ op v id hc.op_eq hclaim
          · refine ⟨hs.row_created d hd, fun d' hd' hid => ?_⟩
            rw [Table.eq_of_key hd' hd hid]
            exact howner
        · exact hs.claims j op' v id hold hclaim
      refine ⟨hsub hbefore.1, fun d hd hid => ?_⟩
      rcases hc.advance.row_owner hd with ⟨d₀, hd₀, hid₀, howner⟩ | ⟨hnewId, -⟩
      · rw [← howner]
        exact hbefore.2 d₀ hd₀ (hid₀.trans hid)
      · exact absurd (hid ▸ hbefore.1) (hnew d.id hnewId)

theorem owned_boot : Owned (Sys.boot World.empty) :=
  ⟨fun _ hd => absurd hd List.not_mem_nil, fun _ _ _ _ hop => by cases hop⟩

end Owned

/-! ### What a user keeps -/

/-- The rows of a user. -/
def World.rowsOf (w : World) (u : User) : List KnowledgeDoc :=
  w.docs.rows.filter fun d => d.uploaderId = u.id

structure Kept (u : User) (w w' : World) : Prop where
  rows : w'.rowsOf u = w.rowsOf u
  objects : ∀ d ∈ w.rowsOf u, w'.objects d.minioKey = w.objects d.minioKey
  owners : ∀ d' ∈ w'.docs.rows,
    (∃ d ∈ w.docs.rows, d.id = d'.id ∧ d.uploaderId = d'.uploaderId) ∨ d'.id ∉ w.createdIds
  created : w.createdIds ⊆ w'.createdIds

namespace Kept

variable {u : User} {w w' w'' : World}

theorem refl (u : User) (w : World) : Kept u w w :=
  ⟨rfl, fun _ _ => rfl, fun d hd => Or.inl ⟨d, hd, rfl, rfl⟩, List.Subset.refl _⟩

theorem trans (h : Kept u w w') (h' : Kept u w' w'') : Kept u w w'' where
  rows := h'.rows.trans h.rows
  objects := fun d hd => (h'.objects d (h.rows ▸ hd)).trans (h.objects d hd)
  owners := fun d'' hd'' => by
    rcases h'.owners d'' hd'' with ⟨d', hd', hid, howner⟩ | hnew
    · rw [← hid, ← howner]
      exact h.owners d' hd'
    · exact Or.inr fun hmem => hnew (h.created hmem)
  created := List.Subset.trans h.created h'.created

end Kept

section Step

variable {cfg : Config} {s s' : Sys} {i : ℕ} {env : Env} {op : Op} {w : World} {pc : Pc}
  {u v : User}

/-- A request that deletes an object deletes it for its own user. -/
theorem objects_calls (hk : Keyed s) (hs : Owned s) (hc : Calls cfg s s' i env op w pc)
    (hfresh : ∀ file ∈ op.pc.storing, generateMinioKey env file.originalname ∉
      s.world.puts.map Prod.fst)
    (hv : op.pc.user = some v) (hvu : v.id ≠ u.id) {d : KnowledgeDoc}
    (hd : d ∈ s.world.rowsOf u) : w.objects d.minioKey = s.world.objects d.minioKey := by
  obtain ⟨hrow, howner⟩ := List.mem_filter.1 hd
  rw [decide_eq_true_iff] at howner
  have hpub := hk.row_published d hrow
  have hput := hk.published_put _ (List.mem_map_of_mem hpub)
  have hstore : ∀ file, op.pc.storing = some file →
      d.minioKey ≠ generateMinioKey env file.originalname := by
    intro file hfile heq
    exact hfresh file hfile (heq ▸ hput)
  have hremove : ∀ doc, op.pc.read = some doc → d.minioKey ≠ doc.minioKey := by
    intro doc hread heq
    have hdoc := hk.read_published i op doc hc.op_eq hread
    have hid := hk.eq_of_published (heq ▸ hpub) hdoc
    obtain ⟨-, hclaim⟩ := hs.claims i op v doc.id hc.op_eq (Pc.claims_of_read hread hv)
    exact hvu ((hclaim d hrow hid).symm.trans howner)
  have hadv := hc.advance
  generalize op.pc = pc₀ at hadv hstore hremove
  cases hadv with
  | stored user file hfail => exact Function.update_of_ne (hstore file rfl) _ _
  | replaceStored user title file doc hfail => exact Function.update_of_ne (hstore file rfl) _ _
  | oldDeleted user title file doc minioKey hfail =>
    exact Function.update_of_ne (hremove doc rfl) _ _
  | objectDeleted user doc hfail => exact Function.update_of_ne (hremove doc rfl) _ _
  | _ => rfl

/-- A request that changes a row changes one of its own user. -/
theorem rowsOf_calls (hs : Owned s) (hc : Calls cfg s s' i env op w pc)
    (hv : op.pc.user = some v) (hvu : v.id ≠ u.id) : w.rowsOf u = s.world.rowsOf u := by
  have hclaims : ∀ v id, op.pc.claims = some (v, id) →
      ∀ d ∈ s.world.docs.rows, d.id = id → d.uploaderId = v.id :=
    fun v id hclaim => (hs.claims i op v id hc.op_eq hclaim).2
  have hadv := hc.advance
  generalize op.pc = pc₀ at hadv hclaims hv
  cases hadv with
  | created user file minioKey docs hfail hdocs =>
    cases hv
    exact Table.filter_create hdocs (decide_eq_false hvu)
  | replaced user id title file minioKey docs hfail hdocs =>
    cases hv
    refine Table.filter_update hdocs fun d hd hid => ?_
    have howner := hclaims v id rfl d hd hid
    have hne : d.uploaderId ≠ u.id := fun heq => hvu (howner.symm.trans heq)
    exact ⟨decide_eq_false hne, decide_eq_false hne⟩
  | rowDeleted user id docs hfail hdocs =>
    cases hv
    refine Table.filter_delete hdocs fun d hd hid => ?_
    have howner := hclaims v id rfl d hd hid
    exact decide_eq_false fun heq => hvu (howner.symm.trans heq)
  | marked | answered => cases hv
  | _ => rfl

theorem kept_calls (hk : Keyed s) (hs : Owned s) (hc : Calls cfg s s' i env op w pc)
    (hfresh : Unrepeated s (.resume i env)) (hv : op.pc.user = some v) (hvu : v.id ≠ u.id) :
    Kept u s.world w := by
  have hpc := s.pc?_of_getElem? hc.op_eq
  refine ⟨rowsOf_calls hs hc hv hvu, fun d hd => ?_, fun d' hd' => ?_,
    hc.advance.createdIds_subset⟩
  · exact objects_calls hk hs hc (hfresh.1 op.pc hpc) hv hvu hd
  · exact (hc.advance.row_owner hd').imp_right fun hnew => hfresh.2 op.pc hpc d'.id hnew.1

end Step

/-! ### Runs of other users -/

def Request.user : Request → Option User
  | .uploadFiles user _ => some user
  | .replaceFile user _ _ _ => some user
  | .deleteFile user _ => some user
  | .findAll user => some user
  | .dispatchPendingTasks => none
  | .updateDocStatusViaWebhook _ _ => none

/-- The request has been answered; it may still have to leave the queue. -/
def Pc.Answered : Pc → Prop
  | .done _ => True
  | _ => False

instance (pc : Pc) : Decidable pc.Answered := by
  rcases pc with _ | _ <;> first | exact instDecidableTrue | exact instDecidableFalse

/-- A call of `uploadFiles`, `replaceFile`, `deleteFile` or `findAll` by another user, or a step
of one. -/
def ByOthers (u : User) (s : Sys) : Event → Prop
  | .request r => ∃ v ∈ r.user, v.id ≠ u.id
  | .resume i _ => ∀ pc ∈ s.pc? i, pc.Answered ∨ ∃ v ∈ pc.user, v.id ≠ u.id

instance (u : User) (s : Sys) : (e : Event) → Decidable (ByOthers u s e)
  | .request r => inferInstanceAs (Decidable (∃ v ∈ r.user, _))
  | .resume i _ => inferInstanceAs (Decidable (∀ pc ∈ s.pc? i, _))

instance (s : Sys) : (e : Event) → Decidable (Unrepeated s e)
  | .request _ => inferInstanceAs (Decidable (True ∧ True))
  | .resume i _ => inferInstanceAs (Decidable ((∀ pc ∈ s.pc? i, _) ∧ ∀ pc ∈ s.pc? i, _))

section Run

variable {cfg : Config} {s s' t : Sys} {e : Event} {es : List Event} {u : User}

theorem kept_step (hk : Keyed s) (hs : Owned s) (hfresh : Unrepeated s e) (hother : ByOthers u s e)
    (h : step cfg s e = some s') : Kept u s.world s'.world := by
  rcases step_quiet_or_calls h with hq | ⟨i, env, op, w, pc, rfl, hc⟩
  · rw [hq.world]
    exact .refl u s.world
  · rw [hc.world]
    rcases hother op.pc (s.pc?_of_getElem? hc.op_eq) with hdone | ⟨v, hv, hvu⟩
    · have hadv := hc.advance
      generalize op.pc = pc₀ at hadv hdone
      cases hadv <;> first | exact .refl u s.world | exact hdone.elim
    · exact kept_calls hk hs hc hfresh hv hvu

/-- Keys and ids stay apart, whoever's requests move. -/
theorem keyed_owned_step (hs : Keyed s ∧ Owned s) (hfresh : Unrepeated s e)
    (h : step cfg s e = some s') : Keyed s' ∧ Owned s' :=
  ⟨hs.1.step hfresh.1 h, hs.2.step hfresh.2 h⟩

theorem kept_run (hs : Keyed s ∧ Owned s) (hfresh : Meets (step cfg) Unrepeated s es)
    (hothers : Meets (step cfg) (ByOthers u) s es) (h : run (step cfg) s es = some t) :
    Kept u s.world t.world := by
  induction es generalizing s with
  | nil => cases h; exact .refl u _
  | cons e es ih =>
    obtain ⟨s₁, hs₁, h⟩ := (run_cons_eq_some _).1 h
    obtain ⟨hfresh₁, hfresh⟩ := hfresh s₁ hs₁
    obtain ⟨hother, hothers⟩ := hothers s₁ hs₁
    exact (kept_step hs.1 hs.2 hfresh₁ hother hs₁).trans
      (ih (keyed_owned_step hs hfresh₁ hs₁) hfresh hothers h)

end Run

end ProtostarNest.Knowledge
