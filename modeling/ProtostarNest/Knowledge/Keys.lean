import ProtostarNest.Knowledge.System

/-!
# Object keys

Where the keys of stored objects are: a request holds the key of an object that it has stored and
not yet named in a row, a row names a key, and a request has read a key from a row.  What is said
here holds whatever calls fail.

* `Pc.storing`, `Pc.held`, `Pc.read`: the file that a request is about to store, the object that
  it holds, the row that it has read and whose object it will delete;
* `World.published`: the keys that rows were given, each with the row;
* `Keys`: what a step of a request does to them, in three cases;
* `Keyed`: as long as no key is generated twice, each key is published once, for one row, and a
  held key is neither published nor held by another request;
* `keyed_of_meets`.
-/

namespace ProtostarNest.Knowledge

open Transition Queue

namespace Pc

/-- The object that the request has stored and not yet named in a row. -/
def held : Pc → Option (String × MulterFile)
  | .processCreate _ file minioKey => some (minioKey, file)
  | .replaceDeleteOld _ _ file _ minioKey => some (minioKey, file)
  | .replaceUpdate _ _ _ file minioKey => some (minioKey, file)
  | _ => none

/-- The row that the request has read, and whose object it will delete. -/
def read : Pc → Option KnowledgeDoc
  | .replacePut _ _ _ doc => some doc
  | .replaceDeleteOld _ _ _ doc _ => some doc
  | .deleteObject _ doc => some doc
  | _ => none

/-- The file that the request is about to store. -/
def storing : Pc → Option MulterFile
  | .processPut _ file => some file
  | .replacePut _ _ file _ => some file
  | _ => none

theorem Idle.held_read {pc : Pc} (h : pc.Idle) : pc.held = none ∧ pc.read = none := by
  cases pc <;> first | exact h.elim | exact ⟨rfl, rfl⟩

theorem dispatchNext_held_read (docs : List KnowledgeDoc) :
    (dispatchNext docs).held = none ∧ (dispatchNext docs).read = none := by
  cases docs <;> exact ⟨rfl, rfl⟩

end Pc

/-- The keys that rows were given, each with the row. -/
def World.published (w : World) : List (String × String) :=
  w.history.filterMap fun
    | .created id minioKey => some (minioKey, id)
    | .replaced id minioKey => some (minioKey, id)
    | _ => none

theorem mem_published_of_log {w : World} {id : String} {c : Commit} {log : List Commit}
    {minioKey : String} (hlog : w.log id = c :: log)
    (hc : c = .created id minioKey ∨ c = .replaced id minioKey) : (minioKey, id) ∈ w.published := by
  have hmem : c ∈ w.log id := by rw [hlog]; exact List.mem_cons_self
  refine List.mem_filterMap.2 ⟨c, (List.mem_filter.1 hmem).1, ?_⟩
  rcases hc with rfl | rfl <;> rfl

/-- What a step of a request does to keys. -/
inductive Keys (w : World) (env : Env) (pc : Pc) (w' : World) (pc' : Pc) : Prop
  | keep (hputs : w'.puts = w.puts) (hpub : w'.published = w.published)
      (hheld : pc'.held = none ∨ pc'.held = pc.held)
      (hread : ∀ d, pc'.read = some d → d ∈ w.docs.rows)
  | put (file : MulterFile) (hstoring : pc.storing = some file)
      (hputs : w'.puts = (generateMinioKey env file.originalname, file) :: w.puts)
      (hpub : w'.published = w.published)
      (hheld : pc'.held = some (generateMinioKey env file.originalname, file))
      (hread : pc'.read = pc.read)
  | publish (p : String × MulterFile) (id : String) (hheld : pc.held = some p)
      (hputs : w'.puts = w.puts) (hpub : w'.published = (p.1, id) :: w.published)
      (hheld' : pc'.held = none) (hread : pc'.read = none)

section Advance

variable {cfg : Config} {w w' : World} {env : Env} {pc pc' : Pc}

theorem Advance.keys (h : Advance cfg w env pc w' pc') : Keys w env pc w' pc' := by
  have hnone : ∀ docs, (Pc.dispatchNext docs).held = none := fun docs =>
    (Pc.dispatchNext_held_read docs).1
  have hread : ∀ docs d, (Pc.dispatchNext docs).read = some d → d ∈ w.docs.rows := by
    intro docs d hd
    rw [(Pc.dispatchNext_held_read docs).2] at hd
    cases hd
  cases h with
  | stored user file hfail => exact .put file rfl rfl rfl rfl rfl
  | replaceStored user title file doc hfail => exact .put file rfl rfl rfl rfl rfl
  | created user file minioKey docs hfail hdocs =>
    exact .publish (minioKey, file) env.id rfl rfl rfl rfl rfl
  | replaced user id title file minioKey docs hfail hdocs =>
    exact .publish (minioKey, file) id rfl rfl rfl rfl rfl
  | oldDeleted user title file doc minioKey hfail =>
    exact .keep rfl rfl (Or.inr rfl) fun _ hd => by cases hd
  | oldKept user title file doc minioKey hno =>
    exact .keep rfl rfl (Or.inr rfl) fun _ hd => by cases hd
  | replaceFound user title file doc hdoc howner =>
    exact .keep rfl rfl (Or.inl rfl) fun d hd => by cases hd; exact hdoc
  | deleteFound user doc hdoc howner =>
    exact .keep rfl rfl (Or.inl rfl) fun d hd => by cases hd; exact hdoc
  | selected horder => exact .keep rfl rfl (Or.inl (hnone _)) (hread _)
  | pushFailed doc rest hno => exact .keep rfl rfl (Or.inl (hnone _)) (hread _)
  | marked doc rest docs hfail hdocs => exact .keep rfl rfl (Or.inl (hnone _)) (hread _)
  | markFailed doc rest hno => exact .keep rfl rfl (Or.inl (hnone _)) (hread _)
  | stop | counted | replaceFailed | rowDeleted | deleteFailed | listed | pushed | answered
  | answerFailed | objectDeleted | objectKept =>
    exact .keep rfl rfl (Or.inl rfl) fun _ hd => by cases hd

theorem Keys.puts_subset (h : Keys w env pc w' pc') : w.puts ⊆ w'.puts := by
  cases h with
  | keep hputs => exact fun p hp => hputs ▸ hp
  | put file hstoring hputs => rw [hputs]; exact List.subset_cons_self _ _
  | publish p id hheld hputs => exact fun p hp => hputs ▸ hp

theorem Keys.published_subset (h : Keys w env pc w' pc') : w.published ⊆ w'.published := by
  cases h with
  | keep hputs hpub => exact fun p hp => hpub ▸ hp
  | put file hstoring hputs hpub => exact fun p hp => hpub ▸ hp
  | publish p id hheld hputs hpub => rw [hpub]; exact List.subset_cons_self _ _

theorem Advance.row_published (h : Advance cfg w env pc w' pc')
    (hsub : w.published ⊆ w'.published)
    (hw : ∀ d ∈ w.docs.rows, (d.minioKey, d.id) ∈ w.published) {d : KnowledgeDoc}
    (hd : d ∈ w'.docs.rows) : (d.minioKey, d.id) ∈ w'.published := by
  cases h.row hd with
  | same _ _ hd₀ hlog => exact hsub (hw d hd₀)
  | created user file minioKey hfail hlog => exact mem_published_of_log hlog (Or.inl rfl)
  | replaced user title file minioKey d₀ hfail hd₀ hlog =>
    exact mem_published_of_log hlog (Or.inr rfl)
  | dispatched doc rest d₀ hfail hd₀ hid hlog => exact hsub (hw d₀ hd₀)
  | answered dto answers metaData d₀ hfail hmeta hd₀ hid hlog => exact hsub (hw d₀ hd₀)

end Advance

/-! ### The invariant -/

structure Keyed (s : Sys) : Prop where
  puts_nodup : (s.world.puts.map Prod.fst).Nodup
  published_nodup : (s.world.published.map Prod.fst).Nodup
  published_put : ∀ k ∈ s.world.published.map Prod.fst, k ∈ s.world.puts.map Prod.fst
  row_published : ∀ d ∈ s.world.docs.rows, (d.minioKey, d.id) ∈ s.world.published
  read_published : ∀ (j : ℕ) (op : Op) (d : KnowledgeDoc), s.ops[j]? = some op →
    op.pc.read = some d → (d.minioKey, d.id) ∈ s.world.published
  held_put : ∀ (j : ℕ) (op : Op) (p : String × MulterFile), s.ops[j]? = some op →
    op.pc.held = some p → p ∈ s.world.puts ∧ p.1 ∉ s.world.published.map Prod.fst
  held_apart : ∀ (i j : ℕ) (op op' : Op) (p p' : String × MulterFile), i ≠ j →
    s.ops[i]? = some op → s.ops[j]? = some op' → op.pc.held = some p → op'.pc.held = some p' →
      p.1 ≠ p'.1

/-- No object key is generated twice. -/
def FreshKey (s : Sys) : Event → Prop
  | .resume i env => ∀ pc ∈ s.pc? i, ∀ file ∈ pc.storing,
      generateMinioKey env file.originalname ∉ s.world.puts.map Prod.fst
  | .request _ => True

section Keyed

variable {cfg : Config} {s s' : Sys} {e : Event} {i : ℕ} {env : Env} {op : Op} {w : World}
  {pc : Pc}

theorem Quiet.held_old {j : ℕ} {p : String × MulterFile} (h : Quiet s s')
    (hop : s'.ops[j]? = some op) (hp : op.pc.held = some p) : s.ops[j]? = some op := by
  refine (h.old_or_idle j op hop).resolve_right fun hidle => ?_
  rw [hidle.1.held_read.1] at hp
  cases hp

theorem Quiet.read_old {j : ℕ} {d : KnowledgeDoc} (h : Quiet s s')
    (hop : s'.ops[j]? = some op) (hd : op.pc.read = some d) : s.ops[j]? = some op := by
  refine (h.old_or_idle j op hop).resolve_right fun hidle => ?_
  rw [hidle.1.held_read.2] at hd
  cases hd

theorem keyed_quiet (hs : Keyed s) (h : Quiet s s') : Keyed s' := by
  obtain ⟨hputs, hpub, hput, hrow, hread, hheld, hapart⟩ := hs
  rw [← h.world] at hputs hpub hput hrow
  refine ⟨hputs, hpub, hput, hrow, ?_, ?_, ?_⟩
  · intro j op d hop hd
    rw [h.world]
    exact hread j op d (h.read_old hop hd) hd
  · intro j op p hop hp
    rw [h.world]
    exact hheld j op p (h.held_old hop hp) hp
  · intro i j op op' p p' hij hop hop' hp hp'
    exact hapart i j op op' p p' hij (h.held_old hop hp) (h.held_old hop' hp') hp hp'

section Calls

variable (hs : Keyed s) (hc : Calls cfg s s' i env op w pc) (hkeys : Keys s.world env op.pc w pc)
  (hfresh : ∀ file, op.pc.storing = some file →
    generateMinioKey env file.originalname ∉ s.world.puts.map Prod.fst)

include hs hc hkeys hfresh in
/-- The key that a request comes to hold is held by no other one. -/
theorem held_apart_self {j : ℕ} {op' : Op} {p p' : String × MulterFile} (hj : j ≠ i)
    (hp : pc.held = some p) (hop' : s.ops[j]? = some op') (hp' : op'.pc.held = some p') :
    p.1 ≠ p'.1 := by
  cases hkeys with
  | keep hputs hpub hheld =>
    rcases hheld with hheld | hheld
    · rw [hheld] at hp
      cases hp
    · rw [hheld] at hp
      exact hs.held_apart i j op op' p p' hj.symm hc.op_eq hop' hp hp'
  | put file hstoring hputs hpub hheld =>
    rw [hheld] at hp
    cases hp
    intro heq
    refine hfresh file hstoring ?_
    rw [show generateMinioKey env file.originalname = p'.1 from heq]
    exact List.mem_map_of_mem (hs.held_put j op' p' hop' hp').1
  | publish p id hheld hputs hpub hheld' => rw [hheld'] at hp; cases hp

include hs hc hkeys hfresh in
theorem held_put_calls {j : ℕ} {op' : Op} {p : String × MulterFile}
    (hop' : s'.ops[j]? = some op') (hp : op'.pc.held = some p) :
    p ∈ w.puts ∧ p.1 ∉ w.published.map Prod.fst := by
  rcases hc.ops_cases hop' with ⟨rfl, rfl⟩ | ⟨hj, hop'⟩
  · cases hkeys with
    | keep hputs hpub hheld =>
      rcases hheld with hheld | hheld
      · rw [hheld] at hp
        cases hp
      · rw [hputs, hpub]
        exact hs.held_put _ op p hc.op_eq (hheld.symm.trans hp)
    | put file hstoring hputs hpub hheld =>
      rw [hheld] at hp
      cases hp
      rw [hputs, hpub]
      exact ⟨List.mem_cons_self, fun hk => hfresh file hstoring (hs.published_put _ hk)⟩
    | publish p id hheld hputs hpub hheld' => rw [hheld'] at hp; cases hp
  · obtain ⟨hput, hpub⟩ := hs.held_put j op' p hop' hp
    refine ⟨hkeys.puts_subset hput, fun hk => ?_⟩
    cases hkeys with
    | keep hputs hpub' => rw [hpub'] at hk; exact hpub hk
    | put file hstoring hputs hpub' => rw [hpub'] at hk; exact hpub hk
    | publish q id hheld hputs hpub' =>
      rw [hpub', List.map_cons, List.mem_cons] at hk
      rcases hk with hk | hk
      · exact hs.held_apart i j op op' q p hj.symm hc.op_eq hop' hheld hp hk.symm
      · exact hpub hk

include hs hc hkeys in
theorem read_published_calls {j : ℕ} {op' : Op} {d : KnowledgeDoc}
    (hop' : s'.ops[j]? = some op') (hd : op'.pc.read = some d) :
    (d.minioKey, d.id) ∈ w.published := by
  have hsub := hkeys.published_subset
  rcases hc.ops_cases hop' with ⟨rfl, rfl⟩ | ⟨hj, hop'⟩
  · cases hkeys with
    | keep hputs hpub hheld hread => exact hsub (hs.row_published d (hread d hd))
    | put file hstoring hputs hpub hheld hread =>
      exact hsub (hs.read_published _ op d hc.op_eq (hread.symm.trans hd))
    | publish p id hheld hputs hpub hheld' hread => rw [hread] at hd; cases hd
  · exact hsub (hs.read_published j op' d hop' hd)

end Calls

theorem keyed_calls (hs : Keyed s) (hc : Calls cfg s s' i env op w pc)
    (hfresh : ∀ file, op.pc.storing = some file →
      generateMinioKey env file.originalname ∉ s.world.puts.map Prod.fst) : Keyed s' := by
  have hkeys := hc.advance.keys
  refine ⟨?_, ?_, ?_, ?_, ?_, ?_, ?_⟩
  · rw [hc.world]
    cases hkeys with
    | keep hputs => rw [hputs]; exact hs.puts_nodup
    | put file hstoring hputs =>
      rw [hputs]
      exact List.nodup_cons.2 ⟨hfresh file hstoring, hs.puts_nodup⟩
    | publish p id hheld hputs => rw [hputs]; exact hs.puts_nodup
  · rw [hc.world]
    cases hkeys with
    | keep hputs hpub => rw [hpub]; exact hs.published_nodup
    | put file hstoring hputs hpub => rw [hpub]; exact hs.published_nodup
    | publish p id hheld hputs hpub =>
      rw [hpub]
      exact List.nodup_cons.2 ⟨(hs.held_put i op p hc.op_eq hheld).2, hs.published_nodup⟩
  · intro k hk
    rw [hc.world] at hk ⊢
    have hmono : s.world.puts.map Prod.fst ⊆ w.puts.map Prod.fst :=
      List.map_subset _ hkeys.puts_subset
    cases hkeys with
    | keep hputs hpub => rw [hpub] at hk; exact hmono (hs.published_put k hk)
    | put file hstoring hputs hpub => rw [hpub] at hk; exact hmono (hs.published_put k hk)
    | publish p id hheld hputs hpub =>
      rw [hpub, List.map_cons, List.mem_cons] at hk
      rcases hk with rfl | hk
      · exact hmono (List.mem_map_of_mem (hs.held_put i op p hc.op_eq hheld).1)
      · exact hmono (hs.published_put k hk)
  · intro d hd
    rw [hc.world] at hd ⊢
    exact hc.advance.row_published hkeys.published_subset hs.row_published hd
  · intro j op' d hop' hd
    rw [hc.world]
    exact read_published_calls hs hc hkeys hop' hd
  · intro j op' p hop' hp
    rw [hc.world]
    exact held_put_calls hs hc hkeys hfresh hop' hp
  · intro a b op₁ op₂ p q hab hop₁ hop₂ hp hq
    rcases hc.ops_cases hop₁ with ⟨rfl, rfl⟩ | ⟨ha, hop₁⟩
    · rcases hc.ops_cases hop₂ with ⟨rfl, rfl⟩ | ⟨hb, hop₂⟩
      · exact absurd rfl hab
      · exact held_apart_self hs hc hkeys hfresh hb hp hop₂ hq
    · rcases hc.ops_cases hop₂ with ⟨rfl, rfl⟩ | ⟨hb, hop₂⟩
      · exact (held_apart_self hs hc hkeys hfresh ha hq hop₁ hp).symm
      · exact hs.held_apart a b op₁ op₂ p q hab hop₁ hop₂ hp hq

theorem Keyed.step (hs : Keyed s) (hfresh : FreshKey s e) (h : step cfg s e = some s') :
    Keyed s' := by
  rcases step_quiet_or_calls h with hq | ⟨i, env, op, w, pc, rfl, hc⟩
  · exact keyed_quiet hs hq
  · exact keyed_calls hs hc fun file hfile =>
      hfresh op.pc (s.pc?_of_getElem? hc.op_eq) file hfile

theorem keyed_boot : Keyed (Sys.boot World.empty) where
  puts_nodup := List.nodup_nil
  published_nodup := List.nodup_nil
  published_put := fun _ hk => absurd hk List.not_mem_nil
  row_published := fun _ hd => absurd hd List.not_mem_nil
  read_published := fun _ _ _ hop => by cases hop
  held_put := fun _ _ _ hop => by cases hop
  held_apart := fun _ _ _ _ _ _ _ hop => by cases hop

/-- The row that has, or had, a key is determined by it. -/
theorem Keyed.eq_of_published (hs : Keyed s) {k id id' : String}
    (h : (k, id) ∈ s.world.published) (h' : (k, id') ∈ s.world.published) : id = id' :=
  congrArg Prod.snd (List.inj_on_of_nodup_map hs.published_nodup h h' rfl)

end Keyed

end ProtostarNest.Knowledge
