import ProtostarNest.Knowledge.Content

/-!
# Objects that no row names

The code never lists the bucket, so an object is found and deleted through the row that names it.
A key is passed on from the request that has stored the object to the row, and from the row to
the requests that have read it and will delete the object.  It is lost when the last write of a
replacement or a deletion drops a key for which nobody else answers.

* `Pc.keys`: the keys for which a request answers;
* `dropped`: the key that the row, or the request, gives up with the last write;
* `Covered`: the object is gone, or a row or a request answers for it;
* `noOrphans_of_meets`: if every dropped key is covered otherwise, no object is orphaned;
* `twoReplacements_orphan`: two replacements of one document, with an orphan at the end.
-/

namespace ProtostarNest.Knowledge

open Transition Queue

/-- The keys for which the request answers: of the object that it has stored, and of the object
that it will delete. -/
def Pc.keys (pc : Pc) : List String :=
  (pc.held.map Prod.fst).toList ++ (pc.read.map KnowledgeDoc.minioKey).toList

theorem Pc.mem_keys {pc : Pc} {k : String} :
    k ∈ pc.keys ↔ (∃ p, pc.held = some p ∧ p.1 = k) ∨ ∃ d, pc.read = some d ∧ d.minioKey = k := by
  simp [keys, Option.map_eq_some_iff]

/-- The key that the last write of a replacement or a deletion takes from the row; a replacement
that finds no row drops its own. -/
def dropped (w : World) : Pc → Option String
  | .replaceUpdate _ id _ _ minioKey =>
      match w.docs.findUnique id with
      | some d => if d.minioKey = minioKey then none else some d.minioKey
      | none => some minioKey
  | .deleteRow _ id => (w.docs.findUnique id).map KnowledgeDoc.minioKey
  | _ => none

/-- The object is gone, or a row or a request answers for it. -/
def Covered (s : Sys) (k : String) : Prop :=
  s.world.objects k = none ∨ (∃ d ∈ s.world.docs.rows, d.minioKey = k) ∨
    ∃ (j : ℕ) (op : Op), s.ops[j]? = some op ∧ k ∈ op.pc.keys

/-- The object is gone, or a row other than `id` or a request other than `i` answers for it. -/
def Released (s : Sys) (i : ℕ) (id k : String) : Prop :=
  s.world.objects k = none ∨ (∃ d ∈ s.world.docs.rows, d.id ≠ id ∧ d.minioKey = k) ∨
    ∃ op ∈ s.ops.eraseIdx i, k ∈ op.pc.keys

instance (s : Sys) (i : ℕ) (id k : String) : Decidable (Released s i id k) :=
  inferInstanceAs (Decidable (_ ∨ _ ∨ _))

/-- What the last write of a replacement or a deletion drops is covered otherwise. -/
def DropsReleased (s : Sys) : Event → Prop
  | .resume i _ => ∀ pc ∈ s.pc? i, ∀ id ∈ pc.target, ∀ k ∈ dropped s.world pc, Released s i id k
  | .request _ => True

instance (s : Sys) : (e : Event) → Decidable (DropsReleased s e)
  | .request _ => instDecidableTrue
  | .resume i _ => inferInstanceAs (Decidable (∀ pc ∈ s.pc? i, _))

/-- The database takes the row: no other row has the new id, and no chunk refers to the old one. -/
def Accepts (w : World) (env : Env) : Pc → Prop
  | .processCreate _ _ _ => env.id ∉ w.docs.rows.map KnowledgeDoc.id
  | .deleteRow _ id => ∀ v ∈ w.vectors, v.knowledgeDocId ≠ id
  | _ => True

instance (w : World) (env : Env) (pc : Pc) : Decidable (Accepts w env pc) := by
  rcases pc with _ | _ <;> first
    | exact instDecidableTrue
    | show Decidable (env.id ∉ w.docs.rows.map KnowledgeDoc.id); infer_instance
    | show Decidable (∀ v ∈ w.vectors, v.knowledgeDocId ≠ _); infer_instance

/-- Storage calls do not fail, and calls of the database only for a missing row. -/
def OnlyMissingRows (s : Sys) : Event → Prop
  | .resume i env => ∀ pc ∈ s.pc? i, OnlyPushFails env pc ∧ Accepts s.world env pc
  | .request _ => True

instance (s : Sys) : (e : Event) → Decidable (OnlyMissingRows s e)
  | .request _ => instDecidableTrue
  | .resume i _ => inferInstanceAs (Decidable (∀ pc ∈ s.pc? i, _))

/-! ### One step -/

section Advance

variable {cfg : Config} {w w' : World} {env : Env} {pc pc' : Pc} {k : String}

theorem Content.puts_or_keys (h : Content w env pc w' pc') (hk : k ∈ w'.puts.map Prod.fst) :
    k ∈ w.puts.map Prod.fst ∨ k ∈ pc'.keys := by
  cases h with
  | keep hobjects hputs => exact Or.inl (hputs ▸ hk)
  | put file hstoring hw hheld =>
    subst hw
    rcases List.mem_cons.1 hk with rfl | hk
    · exact Or.inr (Pc.mem_keys.2 (Or.inl ⟨_, hheld, rfl⟩))
    · exact Or.inl hk
  | remove d hread hw => subst hw; exact Or.inl hk
  | publish p id hheld hobjects hputs => exact Or.inl (hputs ▸ hk)

/-- An object appears only when the request that stores it answers for it. -/
theorem Content.objects_or_keys (h : Content w env pc w' pc') (hk : w.objects k = none) :
    w'.objects k = none ∨ k ∈ pc'.keys := by
  cases h with
  | keep hobjects => exact Or.inl (hobjects ▸ hk)
  | put file hstoring hw hheld =>
    subst hw
    by_cases heq : k = generateMinioKey env file.originalname
    · exact Or.inr (Pc.mem_keys.2 (Or.inl ⟨_, hheld, heq.symm⟩))
    · exact Or.inl ((Function.update_of_ne heq _ _).trans hk)
  | remove d hread hw =>
    subst hw
    by_cases heq : k = d.minioKey
    · subst heq
      exact Or.inl (Function.update_self _ _ _)
    · exact Or.inl ((Function.update_of_ne heq _ _).trans hk)
  | publish p id hheld hobjects => exact Or.inl (hobjects ▸ hk)

/-- A row keeps its key, or a replacement or a deletion drops it. -/
theorem Advance.row_or_dropped (h : Advance cfg w env pc w' pc') {d : KnowledgeDoc}
    (hd : d ∈ w.docs.rows) :
    (∃ d' ∈ w'.docs.rows, d'.id = d.id ∧ d'.minioKey = d.minioKey) ∨
      (pc.target = some d.id ∧ dropped w pc = some d.minioKey) := by
  have hfind : w.docs.findUnique d.id = some d := Table.findUnique_eq_some.2 ⟨hd, rfl⟩
  cases h with
  | created user file minioKey docs hfail hdocs =>
    exact Or.inl ⟨d, (Table.mem_create hdocs).2 (Or.inl hd), rfl, rfl⟩
  | replaced user id title file minioKey docs hfail hdocs =>
    by_cases hid : d.id = id
    · subst hid
      by_cases hkey : d.minioKey = minioKey
      · exact Or.inl ⟨replaceDoc cfg env title file minioKey d,
          (Table.mem_update hdocs).2 (Or.inr ⟨d, hd, rfl, rfl⟩), rfl, hkey.symm⟩
      · refine Or.inr ⟨rfl, ?_⟩
        simp only [dropped, hfind, if_neg hkey]
    · exact Or.inl ⟨d, (Table.mem_update hdocs).2 (Or.inl ⟨hd, hid⟩), rfl, rfl⟩
  | rowDeleted user id docs hfail hdocs =>
    by_cases hid : d.id = id
    · subst hid
      refine Or.inr ⟨rfl, ?_⟩
      simp only [dropped, hfind, Option.map_some]
    · exact Or.inl ⟨d, (Table.mem_delete hdocs).2 ⟨hd, hid⟩, rfl, rfl⟩
  | marked doc rest docs hfail hdocs =>
    by_cases hid : d.id = doc.id
    · exact Or.inl ⟨processingDoc env d, (Table.mem_update hdocs).2 (Or.inr ⟨d, hd, hid, rfl⟩),
        rfl, rfl⟩
    · exact Or.inl ⟨d, (Table.mem_update hdocs).2 (Or.inl ⟨hd, hid⟩), rfl, rfl⟩
  | answered dto answers metaData docs hfail hmeta hdocs =>
    by_cases hid : d.id = dto.docId
    · exact Or.inl ⟨webhookDoc env dto metaData d,
        (Table.mem_update hdocs).2 (Or.inr ⟨d, hd, hid, rfl⟩), rfl, rfl⟩
    · exact Or.inl ⟨d, (Table.mem_update hdocs).2 (Or.inl ⟨hd, hid⟩), rfl, rfl⟩
  | _ => exact Or.inl ⟨d, hd, rfl, rfl⟩

/-- A request hands its key to a row, deletes the object, or drops the key with its last write. -/
theorem advance_keys (h : advance cfg w env pc = some (w', pc')) (hfail : OnlyPushFails env pc)
    (hacc : Accepts w env pc) (hk : k ∈ pc.keys) :
    k ∈ pc'.keys ∨ w'.objects k = none ∨ (∃ d ∈ w'.docs.rows, d.minioKey = k) ∨
      ∃ id, pc.target = some id ∧ dropped w pc = some k := by
  cases pc with
  | processCreate user file minioKey =>
    obtain rfl : minioKey = k := by simpa [Pc.keys, Pc.held, Pc.read, eq_comm] using hk
    have hnone : env.fail = none := hfail
    cases hdocs : w.docs.create (newDoc cfg env user file minioKey) with
    | none => exact absurd (Table.create_eq_none.1 hdocs) hacc
    | some docs =>
      simp only [advance, World.create, hnone, hdocs] at h
      obtain ⟨rfl, rfl⟩ := Prod.mk.inj (Option.some.inj h)
      exact Or.inr (Or.inr (Or.inl ⟨_, (Table.mem_create hdocs).2 (Or.inr rfl), rfl⟩))
  | replacePut user title file doc =>
    have hnone : env.fail = none := hfail
    simp only [advance, World.uploadFile, hnone] at h
    obtain ⟨-, rfl⟩ := Prod.mk.inj (Option.some.inj h)
    exact Or.inl (List.mem_append_right _ hk)
  | replaceDeleteOld user title file doc minioKey =>
    have hnone : env.fail = none := hfail
    simp only [advance, World.deleteFile, hnone] at h
    obtain ⟨rfl, rfl⟩ := Prod.mk.inj (Option.some.inj h)
    rcases List.mem_append.1 hk with hk | hk
    · exact Or.inl (List.mem_append_left _ hk)
    · obtain rfl : k = doc.minioKey := by simpa [Pc.read] using hk
      exact Or.inr (Or.inl (Function.update_self _ _ _))
  | replaceUpdate user id title file minioKey =>
    obtain rfl : minioKey = k := by simpa [Pc.keys, Pc.held, Pc.read, eq_comm] using hk
    have hnone : env.fail = none := hfail
    cases hdocs : w.docs.update id (replaceDoc cfg env title file minioKey) (fun _ => rfl) with
    | none =>
      have hmiss := Table.findUnique_eq_none.2 (Table.update_eq_none.1 hdocs)
      exact Or.inr (Or.inr (Or.inr ⟨id, rfl, by simp only [dropped, hmiss]⟩))
    | some docs =>
      simp only [advance, World.update, hnone, hdocs] at h
      obtain ⟨rfl, rfl⟩ := Prod.mk.inj (Option.some.inj h)
      obtain ⟨d, hd, hid⟩ := List.mem_map.1 (Table.update_eq_some.1 hdocs).1
      exact Or.inr (Or.inr (Or.inl ⟨_, (Table.mem_update hdocs).2 (Or.inr ⟨d, hd, hid, rfl⟩), rfl⟩))
  | deleteObject user doc =>
    obtain rfl : doc.minioKey = k := by simpa [Pc.keys, Pc.held, Pc.read, eq_comm] using hk
    have hnone : env.fail = none := hfail
    simp only [advance, World.deleteFile, hnone] at h
    obtain ⟨rfl, rfl⟩ := Prod.mk.inj (Option.some.inj h)
    exact Or.inr (Or.inl (Function.update_self _ _ _))
  | _ => exact absurd hk List.not_mem_nil

end Advance

theorem Pc.Idle.keys {pc : Pc} (h : pc.Idle) : pc.keys = [] := by
  rw [Pc.keys, h.held_read.1, h.held_read.2]
  rfl

theorem Pc.calling_of_mem_keys {pc : Pc} {k : String} (h : k ∈ pc.keys) : pc.Calling := by
  cases pc <;> trivial

section Covered

variable {cfg : Config} {s s' : Sys} {e : Event} {i : ℕ} {env : Env} {op : Op} {w : World}
  {pc : Pc} {k : String}

theorem covered_quiet (hs : Covered s k) (h : Quiet s s') : Covered s' k := by
  unfold Covered
  rw [h.world]
  refine hs.imp_right (Or.imp_right ?_)
  rintro ⟨j, op, hop, hk⟩
  refine ⟨j, op, (h.kept j op hop).resolve_right fun hidle => ?_, hk⟩
  rw [hidle.keys] at hk
  cases hk

/-- What was released by the request `i` is covered after its step. -/
theorem Released.covered {id : String} (hc : Calls cfg s s' i env op w pc)
    (hcontent : Content s.world env op.pc w pc) (hid : ∀ id', op.pc.target = some id' → id' = id)
    (h : Released s i id k) : Covered s' k := by
  unfold Covered
  rw [hc.world]
  rcases h with hobj | ⟨d, hd, hne, rfl⟩ | ⟨op', hop', hk⟩
  · rcases hcontent.objects_or_keys hobj with hobj | hk
    · exact Or.inl hobj
    · exact Or.inr (Or.inr ⟨i, _, hc.ops_self, hk⟩)
  · rcases hc.advance.row_or_dropped hd with ⟨d', hd', -, hkey⟩ | ⟨htarget, -⟩
    · exact Or.inr (Or.inl ⟨d', hd', hkey⟩)
    · exact absurd (hid d.id htarget) hne
  · obtain ⟨j, hj, hget⟩ := List.mem_eraseIdx_iff_getElem?.1 hop'
    exact Or.inr (Or.inr ⟨j, op', hc.ops_ne hj hget, hk⟩)

theorem covered_calls (hs : Covered s k) (hc : Calls cfg s s' i env op w pc)
    (hstep : step cfg s (.resume i env) = some s') (hfail : OnlyPushFails env op.pc)
    (hacc : Accepts s.world env op.pc)
    (hdrop : ∀ id, op.pc.target = some id → dropped s.world op.pc = some k → Released s i id k) :
    Covered s' k := by
  have hcontent := hc.advance.content hfail
  have hdropped : ∀ id, op.pc.target = some id → dropped s.world op.pc = some k → Covered s' k :=
    fun id ht hd => (hdrop id ht hd).covered hc hcontent
      fun id' ht' => Option.some.inj (ht'.symm.trans ht)
  rcases hs with hobj | ⟨d, hd, rfl⟩ | ⟨j, op', hop', hk⟩
  · rcases hcontent.objects_or_keys hobj with hobj | hk
    · exact Or.inl (by rw [hc.world]; exact hobj)
    · exact Or.inr (Or.inr ⟨i, _, hc.ops_self, hk⟩)
  · rcases hc.advance.row_or_dropped hd with ⟨d', hd', -, hkey⟩ | ⟨htarget, hdrop'⟩
    · exact Or.inr (Or.inl ⟨d', by rw [hc.world]; exact hd', hkey⟩)
    · exact hdropped _ htarget hdrop'
  · by_cases hj : j = i
    · subst hj
      obtain rfl := Option.some.inj (hc.op_eq.symm.trans hop')
      obtain ⟨pc', hadv, hpc'⟩ :=
        advance_of_calling hstep (s.pc?_of_getElem? hc.op_eq) (Pc.calling_of_mem_keys hk)
      rw [s'.pc?_of_getElem? hc.ops_self] at hpc'
      obtain rfl := Option.some.inj hpc'
      rcases advance_keys hadv hfail hacc hk with hk | hobj | hrow | ⟨id, ht, hdrop'⟩
      · exact Or.inr (Or.inr ⟨j, _, hc.ops_self, hk⟩)
      · exact Or.inl hobj
      · exact Or.inr (Or.inl hrow)
      · exact hdropped id ht hdrop'
    · exact Or.inr (Or.inr ⟨j, op', hc.ops_ne hj hop', hk⟩)

/-- Every object that was put in storage is covered. -/
def AllCovered (s : Sys) : Prop := ∀ k ∈ s.world.puts.map Prod.fst, Covered s k

theorem AllCovered.step (hs : AllCovered s) (hmiss : OnlyMissingRows s e)
    (hdrop : DropsReleased s e) (h : step cfg s e = some s') : AllCovered s' := by
  intro k hk
  rcases step_quiet_or_calls h with hq | ⟨i, env, op, w, pc, rfl, hc⟩
  · rw [hq.world] at hk
    exact covered_quiet (hs k hk) hq
  · have hpc := s.pc?_of_getElem? hc.op_eq
    obtain ⟨hfail, hacc⟩ := hmiss op.pc hpc
    rw [hc.world] at hk
    rcases (hc.advance.content hfail).puts_or_keys hk with hput | hkey
    · exact covered_calls (hs k hput) hc h hfail hacc fun id ht hd =>
        hdrop op.pc hpc id ht k hd
    · exact Or.inr (Or.inr ⟨i, _, hc.ops_self, hkey⟩)

end Covered

/-! ### Quiescence -/

/-- Every object that was put in storage and is still there is named by a row. -/
def NoOrphans (w : World) : Prop :=
  ∀ k ∈ w.puts.map Prod.fst, w.objects k ≠ none → ∃ d ∈ w.docs.rows, d.minioKey = k

instance (w : World) : Decidable (NoOrphans w) :=
  inferInstanceAs (Decidable (∀ k ∈ w.puts.map Prod.fst, _))

theorem Pc.inFlight_of_mem_keys {pc : Pc} {k : String} (h : k ∈ pc.keys) : pc.InFlight := by
  cases pc <;> trivial

/-- **In a run without other failures than missing rows, in which each last write drops a key
that is covered otherwise, there is no orphan whenever nothing is in flight.** -/
theorem noOrphans_of_meets (cfg : Config) (w : World) (hw : w.puts = []) (es : List Event)
    (hmiss : Meets (step cfg) OnlyMissingRows (Sys.boot w) es)
    (hdrop : Meets (step cfg) DropsReleased (Sys.boot w) es) :
    ∀ s, Visits (step cfg) (Sys.boot w) es s → Quiescent s → NoOrphans s.world := by
  intro s hs hq k hk hobj
  have hboot : AllCovered (Sys.boot w) := by
    intro k hk
    rw [show (Sys.boot w).world.puts = [] from hw] at hk
    cases hk
  have hcovered : AllCovered s :=
    invariant_of_meets (C := fun s e => OnlyMissingRows s e ∧ DropsReleased s e)
      (fun _ _ _ hs hC hstep => AllCovered.step hs hC.1 hC.2 hstep) hboot (hmiss.and hdrop) s hs
  rcases hcovered k hk with hnone | hrow | ⟨j, op, hop, hkey⟩
  · exact absurd hnone hobj
  · exact hrow
  · exact absurd (Pc.inFlight_of_mem_keys hkey) (hq op (List.mem_of_getElem? hop))

/-- One document is replaced while another is uploaded and deleted. -/
def sideBySideRun : List Event :=
  uploadRun ++
    [.request (.uploadFiles alice [exampleFile]), .resume 2 {}, .resume 2 {},
      .request (.replaceFile alice "d0" "second" ⟨"second.txt", "text/plain", [3], 1⟩),
      .resume 3 { uuid := "k1" }, .resume 4 {}, .resume 4 { uuid := "k2" },
      .resume 3 { id := "d1" }, .request (.deleteFile alice "d1"), .resume 4 {}, .resume 5 {},
      .resume 3 {}, .resume 5 {}, .resume 2 {}, .resume 4 {}, .resume 5 {}]

theorem noOrphans_sideBySide : ∃ s,
    run (step exampleConfig) (Sys.boot World.empty) sideBySideRun = some s ∧
      s.world.docs.rows.map KnowledgeDoc.minioKey = ["2025/01/k2_second.txt"] ∧
      NoOrphans s.world := by
  have hrun : (run (step exampleConfig) (Sys.boot World.empty) sideBySideRun).map
      (fun s => (decide (Quiescent s), s.world.docs.rows.map KnowledgeDoc.minioKey)) =
        some (true, ["2025/01/k2_second.txt"]) := by decide
  obtain ⟨s, hs, hlast⟩ := Option.map_eq_some_iff.1 hrun
  obtain ⟨hq, hkeys⟩ := Prod.mk.inj hlast
  exact ⟨s, hs, hkeys, noOrphans_of_meets exampleConfig World.empty rfl sideBySideRun (by decide)
    (by decide) s (Visits.of_run hs) (of_decide_eq_true hq)⟩

/-- The second of two replacements overwrites the key of the first, which nobody has read. -/
theorem twoReplacements_orphan :
    ¬ ∀ (cfg : Config) (w : World) (es : List Event) (s : Sys), w.puts = [] →
      Meets (step cfg) OnlyMissingRows (Sys.boot w) es → Visits (step cfg) (Sys.boot w) es s →
        Quiescent s → NoOrphans s.world := by
  intro h
  have hrun : (run (step exampleConfig) (Sys.boot World.empty) twoReplacementsRun).map
      (fun s => (decide (Quiescent s), decide (NoOrphans s.world))) = some (true, false) := by
    decide
  obtain ⟨s, hs, hlast⟩ := Visits.of_run_map hrun
  obtain ⟨hq, hno⟩ := Prod.mk.inj hlast
  exact of_decide_eq_false hno (h exampleConfig World.empty twoReplacementsRun s rfl (by decide) hs
    (of_decide_eq_true hq))

end ProtostarNest.Knowledge
