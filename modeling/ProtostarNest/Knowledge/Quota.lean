import ProtostarNest.Knowledge.System

/-!
# The personal upload limit

`uploadFiles` compares the number of rows at the time of its count with the limit, and the rows
of the admitted files appear later.  The rows of a user together with the unfinished upload
tasks of the user are the number that an admission would have to look at.

* `outstanding`: the unfinished upload tasks of a user;
* `Fits`: an admission that passes the check of the code also fits when those tasks and the rows
  created since the count are taken into account;
* `quota_of_meets`: in a run in which each admission fits, no user ever exceeds the limit;
* `quota_eightDocs`, `twoUploads_exceed`: two requests are admitted with the same count, with and
  without room for both.
-/

namespace ProtostarNest.Knowledge

open Transition Queue

/-- A task of `uploadFiles` for the user that may still create a row. -/
def Pc.creates (uploaderId : String) : Pc → Bool
  | .processPut user _ => user.id = uploaderId
  | .processCreate user _ _ => user.id = uploaderId
  | _ => false

namespace Sys

/-- The upload tasks of a user that are waiting or running. -/
def outstanding (s : Sys) (uploaderId : String) : ℕ :=
  s.ops.countP fun op => op.pc.creates uploaderId

/-- The rows that the user has or may get from the tasks that are there. -/
def claimed (s : Sys) (uploaderId : String) : ℕ :=
  s.world.count uploaderId + s.outstanding uploaderId

end Sys

/-- An admission: when the check passes, the files fit beside all that the user has claimed. -/
def Fits (s : Sys) : Event → Prop
  | .resume i _ =>
      match s.pc? i with
      | some (.uploadAdmit user files currentCount) =>
          currentCount + files.length ≤ PERSONAL_MAX_UPLOADS →
            s.claimed user.id + files.length ≤ PERSONAL_MAX_UPLOADS
      | _ => True
  | .request _ => True

/-- `Fits` as a test of the control point, from the numbers of what the users have claimed. -/
def Pc.fits (claimed : String → ℕ) : Pc → Bool
  | .uploadAdmit user files currentCount =>
      currentCount + files.length ≤ PERSONAL_MAX_UPLOADS →
        claimed user.id + files.length ≤ PERSONAL_MAX_UPLOADS
  | _ => true

theorem fits_resume_iff {s : Sys} {i : ℕ} {env : Env} :
    (s.pc? i).all (Pc.fits s.claimed) = true ↔ Fits s (.resume i env) := by
  cases h : s.pc? i with
  | none => simp [Fits, h]
  | some pc =>
    cases pc with
    | uploadAdmit user files currentCount =>
      simp only [Fits, h, Option.all_some, Pc.fits, decide_eq_true_iff]
    | _ => simp [Fits, h, Pc.fits]

instance (s : Sys) : (e : Event) → Decidable (Fits s e)
  | .request _ => instDecidableTrue
  | .resume _ _ => decidable_of_iff _ fits_resume_iff

theorem Pc.Initial.creates {pc : Pc} (h : pc.Initial) (u : String) : pc.creates u = false := by
  cases h <;> rfl

theorem Pc.Local.creates {pc pc' : Pc} (h : pc.Local pc') (u : String) :
    pc.creates u = false ∧ pc'.creates u = false := by
  cases h <;> exact ⟨rfl, rfl⟩

theorem Pc.creates_dispatchNext (docs : List KnowledgeDoc) (u : String) :
    (Pc.dispatchNext docs).creates u = false := by
  cases docs <;> rfl

theorem Pc.TaskOf.creates_of_ne {user : User} {pc : Pc} (h : pc.TaskOf user) {u : String}
    (hu : user.id ≠ u) : pc.creates u = false := by
  cases h with
  | processPut file => exact decide_eq_false hu
  | refused e => rfl

section Advance

variable {cfg : Config} {w w' : World} {env : Env} {pc pc' : Pc}

/-- One row at most, and only by the task that ends with it. -/
theorem Advance.claimed (h : Advance cfg w env pc w' pc') (u : String) :
    w'.count u + (if pc'.creates u then 1 else 0) ≤
      w.count u + (if pc.creates u then 1 else 0) := by
  cases h with
  | stop pc result hpc => exact Nat.add_le_add_left (Nat.zero_le _) _
  | created user file minioKey docs hfail hdocs =>
    have hcount := Table.countP_create (fun d : KnowledgeDoc => decide (d.uploaderId = u)) hdocs
    show docs.rows.countP (fun d => d.uploaderId = u) + 0 ≤ _
    rw [hcount, Nat.add_zero]
    exact Nat.le_refl _
  | replaced user id title file minioKey docs hfail hdocs =>
    have hcount := Table.countP_update (fun d : KnowledgeDoc => decide (d.uploaderId = u))
      hdocs (fun _ => rfl)
    exact Nat.add_le_add_right (Nat.le_of_eq hcount) _
  | rowDeleted user id docs hfail hdocs =>
    have hcount := Table.countP_delete (fun d : KnowledgeDoc => decide (d.uploaderId = u)) hdocs
    exact Nat.add_le_add_right hcount _
  | marked doc rest docs hfail hdocs =>
    have hcount := Table.countP_update (fun d : KnowledgeDoc => decide (d.uploaderId = u))
      hdocs (fun _ => rfl)
    rw [Pc.creates_dispatchNext]
    exact Nat.add_le_add_right (Nat.le_of_eq hcount) _
  | answered dto answers metaData docs hfail hmeta hdocs =>
    have hcount := Table.countP_update (fun d : KnowledgeDoc => decide (d.uploaderId = u))
      hdocs (fun _ => rfl)
    exact Nat.add_le_add_right (Nat.le_of_eq hcount) _
  | selected horder => rw [Pc.creates_dispatchNext]; exact Nat.le_refl _
  | pushFailed doc rest hfail => rw [Pc.creates_dispatchNext]; exact Nat.le_refl _
  | markFailed doc rest hfail => rw [Pc.creates_dispatchNext]; exact Nat.le_refl _
  | counted | stored | replaceFound | replaceStored | oldDeleted | oldKept | replaceFailed
  | deleteFound | objectDeleted | objectKept | deleteFailed | listed | pushed | answerFailed =>
    exact Nat.le_refl _

end Advance

section Quota

variable {cfg : Config} {s s' : Sys} {e : Event}

/-- Replacing one request changes the number of the outstanding tasks by that request only. -/
theorem countP_set_add {ops : List Op} {i : ℕ} {op : Op} (hop : ops[i]? = some op) (op' : Op)
    (p : Op → Bool) :
    (ops.set i op').countP p + (if p op then 1 else 0) =
      ops.countP p + (if p op' then 1 else 0) := by
  obtain ⟨hi, rfl⟩ := List.getElem?_eq_some_iff.1 hop
  rw [List.countP_set hi]
  have hpos : (if p ops[i] then 1 else 0) ≤ ops.countP p := by
    split_ifs with hp
    · exact List.countP_pos_iff.2 ⟨_, List.getElem_mem hi, hp⟩
    · exact Nat.zero_le _
  omega

/-- Only an admission raises what a user has claimed, by the number of its files at most. -/
theorem claimed_step (h : step cfg s e = some s') (u : String) :
    s'.claimed u ≤ s.claimed u ∨
      ∃ i env op user files currentCount, e = .resume i env ∧ s.ops[i]? = some op ∧
        op.pc = .uploadAdmit user files currentCount ∧
        currentCount + files.length ≤ PERSONAL_MAX_UPLOADS ∧ user.id = u ∧
        s'.claimed u ≤ s.claimed u + files.length := by
  unfold Sys.claimed Sys.outstanding
  rcases step_cases h with ⟨r, op, -, hw, hops, hpc, -⟩ | ⟨i, env, op, rfl, hop, hcases⟩
  · left
    rw [hw, hops, List.countP_append, List.countP_singleton, hpc.creates]
    simp
  · rcases hcases with ⟨w, pc, hadv, rfl, hops⟩ | ⟨op', hloc, hw, hops⟩ |
      ⟨user, files, currentCount, tasks, ids, hpc, hlimit, hlen, htask, hw, hops⟩
    · left
      have hset := countP_set_add hop { op with pc := pc } fun op => op.pc.creates u
      have hadv := hadv.claimed u
      rw [hops]
      simp only at hset
      omega
    · left
      have hset := countP_set_add hop op' fun op => op.pc.creates u
      obtain ⟨hold, hnew⟩ := hloc.creates u
      simp only [hold, hnew] at hset
      rw [hw, hops]
      omega
    · have hop' : (s.ops ++ tasks)[i]? = some op := by
        rw [List.getElem?_append_left (List.getElem?_eq_some_iff.1 hop).1]
        exact hop
      have hset := countP_set_add hop' { op with pc := .uploadJoin user ids }
        fun op => op.pc.creates u
      have hold : op.pc.creates u = false := by rw [hpc]; rfl
      have hnew : (Pc.uploadJoin user ids).creates u = false := rfl
      simp only [hold, hnew, List.countP_append] at hset
      have htasks : tasks.countP (fun op => op.pc.creates u) ≤ files.length := by
        rw [← hlen]
        exact List.countP_le_length
      by_cases hu : user.id = u
      · refine Or.inr ⟨i, env, op, user, files, currentCount, rfl, hop, hpc, hlimit, hu, ?_⟩
        rw [hw, hops]
        omega
      · left
        have hzero : tasks.countP (fun op => op.pc.creates u) = 0 := by
          refine List.countP_eq_zero.2 fun t ht => ?_
          rw [(htask t ht).creates_of_ne hu]
          exact Bool.false_ne_true
        rw [hw, hops]
        omega

/-- **In a run in which each admission fits, no user ever has more rows than the limit.** -/
theorem quota_of_meets (cfg : Config) (w : World)
    (hw : ∀ u, w.count u ≤ PERSONAL_MAX_UPLOADS) (es : List Event)
    (h : Meets (step cfg) Fits (Sys.boot w) es) :
    ∀ s, Visits (step cfg) (Sys.boot w) es s → ∀ u, s.world.count u ≤ PERSONAL_MAX_UPLOADS := by
  have hkeep : ∀ s e s', (∀ u, s.claimed u ≤ PERSONAL_MAX_UPLOADS) → Fits s e →
      step cfg s e = some s' → ∀ u, s'.claimed u ≤ PERSONAL_MAX_UPLOADS := by
    intro s e s' hs hfits hstep u
    rcases claimed_step hstep u with hle |
      ⟨i, env, op, user, files, currentCount, rfl, hop, hpc, hlimit, rfl, hle⟩
    · exact Nat.le_trans hle (hs u)
    · rw [Fits, s.pc?_of_getElem? hop, hpc] at hfits
      exact Nat.le_trans hle (hfits hlimit)
  have hboot : ∀ u, (Sys.boot w).claimed u ≤ PERSONAL_MAX_UPLOADS := hw
  intro s hs u
  exact Nat.le_trans (Nat.le_add_right _ _) (invariant_of_meets hkeep hboot h s hs u)

/-! ### Two requests with one count -/

/-- Documents of one user. -/
def docsOfAlice (ids : List String) (hids : ids.Nodup) : World :=
  { World.empty with
    docs := ⟨ids.map fun id => newDoc exampleConfig { id := id } alice exampleFile id, by
      rwa [List.map_map, show KnowledgeDoc.id ∘ _ = id from rfl, List.map_id]⟩ }

theorem count_docsOfAlice {ids : List String} (hids : ids.Nodup) (u : String) :
    (docsOfAlice ids hids).count u ≤ ids.length :=
  Nat.le_trans List.countP_le_length (Nat.le_of_eq (List.length_map ..))

def eightDocs : World := docsOfAlice ["0", "1", "2", "3", "4", "5", "6", "7"] (by decide)

def nineDocs : World := docsOfAlice ["0", "1", "2", "3", "4", "5", "6", "7", "8"] (by decide)

/-- Both requests count the same rows, and both are admitted. -/
def twoUploadsRun : List Event :=
  [.request (.uploadFiles alice [exampleFile]), .request (.uploadFiles alice [exampleFile]),
    .resume 0 {}, .resume 1 {}, .resume 0 {}, .resume 1 {},
    .resume 2 { uuid := "k0" }, .resume 2 { id := "d0" },
    .resume 3 { uuid := "k1" }, .resume 3 { id := "d1" }]

/-- With eight rows there is room for both. -/
theorem quota_eightDocs :
    ∃ s, run (step exampleConfig) (Sys.boot eightDocs) twoUploadsRun = some s ∧
      s.world.count "alice" = 10 ∧ s.world.count "alice" ≤ PERSONAL_MAX_UPLOADS := by
  have hrun : (run (step exampleConfig) (Sys.boot eightDocs) twoUploadsRun).map
      (fun s => s.world.count "alice") = some 10 := by decide
  obtain ⟨s, hs, hcount⟩ := Option.map_eq_some_iff.1 hrun
  exact ⟨s, hs, hcount, quota_of_meets exampleConfig eightDocs
    (fun u => Nat.le_trans (count_docsOfAlice _ u) (by decide)) twoUploadsRun (by decide) s
    (Visits.of_run hs) "alice"⟩

/-- With nine rows there is not. -/
theorem twoUploads_exceed :
    ¬ ∀ (cfg : Config) (w : World) (es : List Event),
      (∀ u, w.count u ≤ PERSONAL_MAX_UPLOADS) →
        ∀ s, Visits (step cfg) (Sys.boot w) es s → ∀ u, s.world.count u ≤ PERSONAL_MAX_UPLOADS := by
  intro h
  have hrun : (run (step exampleConfig) (Sys.boot nineDocs) twoUploadsRun).map
      (fun s => s.world.count "alice") = some 11 := by decide
  obtain ⟨s, hs, hcount⟩ := Visits.of_run_map hrun
  have hnine : ∀ u, nineDocs.count u ≤ PERSONAL_MAX_UPLOADS := fun u =>
    Nat.le_trans (count_docsOfAlice _ u) (by decide)
  have hle := h exampleConfig nineDocs twoUploadsRun hnine s hs "alice"
  rw [hcount] at hle
  exact absurd hle (by decide)

end Quota

end ProtostarNest.Knowledge
