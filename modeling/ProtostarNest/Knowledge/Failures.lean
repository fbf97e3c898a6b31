import ProtostarNest.Knowledge.System

/-!
# Requests whose calls fail

A replacement and a deletion each write to the object storage and to the database, one call after
the other and with nothing that undoes the first.  Here one of them runs among requests that leave
its document alone, any of its calls may fail, and each theorem says for which failures the
document is as it was after an error.

* `calls`: what the awaited calls of one request get from outside in a run;
* `SameDocument`, `Served`: a run that answers the request, in which nobody else touches the
  document;
* `Served.next`, `Served.done`: such a run up to the next call of the request, or at its end;
* `replace_intact_iff`, `delete_intact_iff`: the failures that cost the document.
-/

namespace ProtostarNest.Knowledge

open Transition Queue

/-- The chunk rows of a document. -/
def World.chunks (w : World) (id : String) : List VectorizedDoc :=
  w.vectors.filter fun v => v.knowledgeDocId = id

/-- The row `id`, its chunks and the object under `minioKey` are the same in both. -/
structure SameDocument (id minioKey : String) (w w' : World) : Prop where
  row : w'.docs.findUnique id = w.docs.findUnique id
  chunks : w'.chunks id = w.chunks id
  object : w'.objects minioKey = w.objects minioKey

namespace SameDocument

variable {id minioKey : String} {w w' w'' : World}

theorem refl (id minioKey : String) (w : World) : SameDocument id minioKey w w := ⟨rfl, rfl, rfl⟩

theorem trans (h : SameDocument id minioKey w w') (h' : SameDocument id minioKey w' w'') :
    SameDocument id minioKey w w'' :=
  ⟨h'.row.trans h.row, h'.chunks.trans h.chunks, h'.object.trans h.object⟩

end SameDocument

/-! ### One request among others -/

/-- What the request `i` gets from outside, if the label is its step. -/
def Event.envOf (i : ℕ) : Event → Option Env
  | .resume j env => if j = i then some env else none
  | .request _ => none

/-- What the steps of the request `i` get from outside, in order. -/
def calls (i : ℕ) (es : List Event) : List Env := es.filterMap (Event.envOf i)

theorem calls_cons_self (i : ℕ) (env : Env) (es : List Event) :
    calls i (.resume i env :: es) = env :: calls i es :=
  List.filterMap_cons_some (if_pos rfl)

theorem calls_cons_other {i : ℕ} {e : Event} (es : List Event) (h : e.envOf i = none) :
    calls i (e :: es) = calls i es :=
  List.filterMap_cons_none h

/-- The steps of requests other than `i` leave the document alone. -/
def OthersSpare (cfg : Config) (i : ℕ) (id minioKey : String) (s : Sys) (e : Event) : Prop :=
  e.envOf i = none → ∀ t, step cfg s e = some t → SameDocument id minioKey s.world t.world

/-- A run that answers the request `i`, and in which nobody else touches the document. -/
structure Served (cfg : Config) (i : ℕ) (id minioKey : String) (s : Sys) (es : List Event) (t : Sys)
    (result : Except Exception Reply) : Prop where
  run : run (step cfg) s es = some t
  spared : Meets (step cfg) (OthersSpare cfg i id minioKey) s es
  answered : t.pc? i = some (.done result)

section Served

variable {cfg : Config} {s s' t : Sys} {e : Event} {es : List Event} {i : ℕ} {id minioKey : String}
  {pc : Pc} {result result' : Except Exception Reply}

/-- A label that is not a step of `i` leaves `i` where it is. -/
theorem pc?_of_other (h : step cfg s e = some s') (he : e.envOf i = none)
    (hpc : s.pc? i = some pc) : s'.pc? i = some pc := by
  obtain ⟨op, hop, rfl⟩ := Option.map_eq_some_iff.1 hpc
  refine s'.pc?_of_getElem? (ops_of_ne h ?_ hop)
  rintro env rfl
  simp [Event.envOf] at he

theorem envOf_eq_some {env : Env} (h : e.envOf i = some env) : e = .resume i env := by
  cases e with
  | request r => cases h
  | resume j env' =>
    simp only [Event.envOf] at h
    split_ifs at h with hj
    cases h
    rw [hj]

/-- The step of a request that has been answered. -/
theorem step_of_done {env : Env} (h : step cfg s (.resume i env) = some s')
    (hpc : s.pc? i = some (.done result)) :
    s'.world = s.world ∧ s'.pc? i = some (.done result) := by
  obtain ⟨-, op, hop, hres⟩ := step_resume_iff.1 h
  have hdone : op.pc = .done result := by
    rw [s.pc?_of_getElem? hop] at hpc
    exact Option.some.inj hpc
  have hi := (List.getElem?_eq_some_iff.1 hop).1
  cases hres with
  | accepted user files n hadm => rw [hdone] at hadm; cases hadm
  | joined user tasks values hjoin => rw [hdone] at hjoin; cases hjoin
  | released result' _ hqueued => exact ⟨rfl, by simp [Sys.pc?, Sys.release, hi, hdone]⟩
  | called w pc hcall => rw [hdone] at hcall; exact hcall.elim

/-- The next call of the request: those of others before it leave the document alone. -/
theorem Served.next (h : Served cfg i id minioKey s es t result) (hpc : s.pc? i = some pc)
    (hcall : pc.Calling) :
    ∃ (env : Env) (es' : List Event) (s₁ s₂ : Sys) (pc' : Pc),
      calls i es = env :: calls i es' ∧ SameDocument id minioKey s.world s₁.world ∧
        advance cfg s₁.world env pc = some (s₂.world, pc') ∧ s₂.pc? i = some pc' ∧
        Served cfg i id minioKey s₂ es' t result := by
  obtain ⟨hrun, hspared, hanswered⟩ := h
  induction es generalizing s with
  | nil =>
    cases hrun
    rw [hpc] at hanswered
    cases hanswered
    exact hcall.elim
  | cons e es ih =>
    obtain ⟨u, hu, hrest⟩ := (run_cons_eq_some _).1 hrun
    obtain ⟨hspare, hspares⟩ := hspared u hu
    cases he : e.envOf i with
    | none =>
      obtain ⟨env, es', s₁, s₂, pc', hcalls, hsame, htail⟩ :=
        ih (pc?_of_other hu he hpc) hrest hspares
      exact ⟨env, es', s₁, s₂, pc', (calls_cons_other es he).trans hcalls,
        (hspare he u hu).trans hsame, htail⟩
    | some env =>
      obtain rfl := envOf_eq_some he
      obtain ⟨pc', hadv, hpc'⟩ := advance_of_calling hu hpc hcall
      exact ⟨env, es, s, u, pc', calls_cons_self i env es, .refl _ _ _, hadv, hpc', hrest, hspares,
        hanswered⟩

/-- A run of the steps of one request. -/
theorem served_of_alone (hrun : run (step cfg) s es = some t)
    (halone : ∀ e ∈ es, e.envOf i ≠ none) (hans : t.pc? i = some (.done result)) :
    Served cfg i id minioKey s es t result :=
  ⟨hrun, Meets.of_forall fun _ e he hother => absurd hother (halone e he), hans⟩

/-- Once the request has been answered the document stays as it is. -/
theorem Served.done (h : Served cfg i id minioKey s es t result)
    (hpc : s.pc? i = some (.done result')) :
    result = result' ∧ SameDocument id minioKey s.world t.world := by
  obtain ⟨hrun, hspared, hanswered⟩ := h
  induction es generalizing s with
  | nil =>
    cases hrun
    rw [hpc] at hanswered
    cases hanswered
    exact ⟨rfl, .refl _ _ _⟩
  | cons e es ih =>
    obtain ⟨u, hu, hrest⟩ := (run_cons_eq_some _).1 hrun
    obtain ⟨hspare, hspares⟩ := hspared u hu
    cases he : e.envOf i with
    | none =>
      obtain ⟨hresult, hsame⟩ := ih (pc?_of_other hu he hpc) hrest hspares
      exact ⟨hresult, (hspare he u hu).trans hsame⟩
    | some env =>
      obtain rfl := envOf_eq_some he
      obtain ⟨hw, hpc'⟩ := step_of_done hu hpc
      rw [← hw]
      exact ih hpc' hrest hspares

theorem Served.thrown {ex : Exception} (h : Served cfg i id minioKey s es t result)
    (hpc : s.pc? i = some (.throw ex)) :
    result = .error ex ∧ SameDocument id minioKey s.world t.world :=
  h.done hpc

/-- The listing at the end of a request answers when neither of its calls fails. -/
theorem Served.listing {user : User} (h : Served cfg i id minioKey s es t result)
    (hpc : s.pc? i = some (.findAll user)) (hlist : ∀ env ∈ (calls i es).take 2, env.fail = none) :
    (∃ reply, result = .ok reply) ∧ SameDocument id minioKey s.world t.world := by
  obtain ⟨find, es₁, s₁, s₂, pc₁, hcalls₁, hsame₁, hadv₁, hpc₁, h₁⟩ := h.next hpc trivial
  have hfind : find.fail = none := hlist find (by simp [hcalls₁])
  simp only [advance, hfind] at hadv₁
  split_ifs at hadv₁
  obtain ⟨hw₁, rfl⟩ := Prod.mk.inj (Option.some.inj hadv₁)
  obtain ⟨count, es₂, s₃, s₄, pc₂, hcalls₂, hsame₂, hadv₂, hpc₂, h₂⟩ := h₁.next hpc₁ trivial
  have hcount : count.fail = none := hlist count (by simp [hcalls₁, hcalls₂])
  simp only [advance, hcount] at hadv₂
  obtain ⟨hw₂, rfl⟩ := Prod.mk.inj (Option.some.inj hadv₂)
  obtain ⟨hresult, hsame₃⟩ := h₂.done hpc₂
  rw [← hw₁] at hsame₂
  rw [← hw₂] at hsame₃
  exact ⟨⟨_, hresult⟩, (hsame₁.trans hsame₂).trans hsame₃⟩

end Served

/-! ### Replacements -/

/-- A replacement that was rejected has left the row and the bytes of its object as they were. -/
def ReplaceIntact (doc : KnowledgeDoc) (object : StoredObject) (result : Except Exception Reply)
    (w' : World) : Prop :=
  (∃ ex, result = .error ex) → w'.docs.findUnique doc.id = some doc ∧
    (w'.objects doc.minioKey).map StoredObject.body = some object.body

/-- The row is not changed although the old object is gone, or is not the old one any more. -/
def ReplaceLoses (user : User) (file : MulterFile) (doc : KnowledgeDoc) (object : StoredObject) :
    List Env → Prop
  | find :: put :: remove :: update :: _ =>
      doc.uploaderId = user.id ∧ find.fail = none ∧ put.fail = none ∧ update.fail ≠ none ∧
        (remove.fail = none ∨
          generateMinioKey put file.originalname = doc.minioKey ∧ file.buffer ≠ object.body)
  | _ => False

section Replace

variable {cfg : Config} {s t : Sys} {es : List Event} {i : ℕ} {user : User} {id : String}
  {title : Option String} {file : MulterFile} {doc : KnowledgeDoc} {object : StoredObject}
  {result : Except Exception Reply}

/-- The update of a replacement: it succeeds, or it fails and changes nothing. -/
theorem Served.update {minioKey k : String} (h : Served cfg i id k s es t result)
    (hpc : s.pc? i = some (.replaceUpdate user id title file minioKey))
    (hdoc : s.world.docs.findUnique id = some doc)
    (hlist : ∀ env ∈ ((calls i es).drop 1).take 2, env.fail = none) :
    ∃ update rest, calls i es = update :: rest ∧
      ((update.fail = none ∧ ∃ reply, result = .ok reply) ∨
        (update.fail ≠ none ∧ (∃ ex, result = .error ex) ∧ SameDocument id k s.world t.world)) := by
  obtain ⟨update, es₁, s₁, s₂, pc₁, hcalls, hsame, hadv, hpc₁, h₁⟩ := h.next hpc trivial
  refine ⟨update, _, hcalls, ?_⟩
  cases hfail : update.fail with
  | some e =>
    simp only [advance, World.update, hfail] at hadv
    obtain ⟨hw, rfl⟩ := Prod.mk.inj (Option.some.inj hadv)
    obtain ⟨hresult, hsame₁⟩ := h₁.thrown hpc₁
    rw [← hw] at hsame₁
    exact Or.inr ⟨Option.some_ne_none e, ⟨_, hresult⟩, hsame.trans hsame₁⟩
  | none =>
    have hmem : id ∈ s₁.world.docs.rows.map KnowledgeDoc.id :=
      Table.mem_keys_of_findUnique (hsame.row.trans hdoc)
    cases hdocs : s₁.world.docs.update id (replaceDoc cfg update title file minioKey)
        (fun _ => rfl) with
    | none => exact absurd hmem (Table.update_eq_none.1 hdocs)
    | some docs =>
      simp only [advance, World.update, hfail, hdocs] at hadv
      obtain ⟨-, rfl⟩ := Prod.mk.inj (Option.some.inj hadv)
      rw [hcalls, List.drop_one, List.tail_cons] at hlist
      exact Or.inl ⟨rfl, (h₁.listing hpc₁ hlist).1⟩

/-- Deleting the old object lets the row be, and the object as well if it fails. -/
theorem Served.remove {minioKey : String}
    (h : Served cfg i id doc.minioKey s es t result)
    (hpc : s.pc? i = some (.replaceDeleteOld user title file doc minioKey))
    (hdoc : s.world.docs.findUnique id = some doc)
    (hlist : ∀ env ∈ ((calls i es).drop 2).take 2, env.fail = none) :
    ∃ remove update rest, calls i es = remove :: update :: rest ∧
      ((update.fail = none ∧ ∃ reply, result = .ok reply) ∨
        (update.fail ≠ none ∧ (∃ ex, result = .error ex) ∧
          t.world.docs.findUnique id = s.world.docs.findUnique id ∧
          t.world.chunks id = s.world.chunks id ∧
          t.world.objects doc.minioKey =
            if remove.fail = none then none else s.world.objects doc.minioKey)) := by
  obtain ⟨remove, es₁, s₁, s₂, pc₁, hcalls, hsame, hadv, hpc₁, h₁⟩ := h.next hpc trivial
  obtain ⟨-, hid⟩ := Table.findUnique_eq_some.1 hdoc
  have hlist₁ : ∀ env ∈ ((calls i es₁).drop 1).take 2, env.fail = none := by
    rw [hcalls, List.drop_succ_cons] at hlist
    exact hlist
  cases hfail : remove.fail with
  | some e =>
    simp only [advance, World.deleteFile, hfail] at hadv
    obtain ⟨hw, rfl⟩ := Prod.mk.inj (Option.some.inj hadv)
    rw [hw] at hsame
    rw [hid] at hpc₁
    obtain ⟨update, rest, hcalls₁, hupd⟩ := h₁.update hpc₁ (hsame.row.trans hdoc) hlist₁
    refine ⟨remove, update, rest, by rw [hcalls, hcalls₁], hupd.imp_right ?_⟩
    rintro ⟨hno, herr, hsame₁⟩
    have hall := hsame.trans hsame₁
    exact ⟨hno, herr, hall.row, hall.chunks, by simpa [hfail] using hall.object⟩
  | none =>
    simp only [advance, World.deleteFile, hfail] at hadv
    obtain ⟨hw, rfl⟩ := Prod.mk.inj (Option.some.inj hadv)
    rw [hid] at hpc₁
    have hdocs : s₂.world.docs = s₁.world.docs := by rw [← hw]; rfl
    obtain ⟨update, rest, hcalls₁, hupd⟩ :=
      h₁.update hpc₁ (by rw [hdocs]; exact hsame.row.trans hdoc) hlist₁
    refine ⟨remove, update, rest, by rw [hcalls, hcalls₁], hupd.imp_right ?_⟩
    rintro ⟨hno, herr, hsame₁⟩
    refine ⟨hno, herr, ?_, ?_, ?_⟩
    · rw [hsame₁.row, hdocs, hsame.row]
    · rw [hsame₁.chunks, ← hsame.chunks, ← hw]
      rfl
    · rw [hsame₁.object, ← hw, if_pos hfail]
      exact Function.update_self _ _ _

/-- The lookup of a replacement: it is refused and nothing happens, or it goes on to its upload. -/
theorem Served.lookup {k : String} (h : Served cfg i id k s es t result)
    (hpc : s.pc? i = some (.replaceFind user id title file))
    (hdoc : s.world.docs.findUnique id = some doc) :
    ∃ find es₁, calls i es = find :: calls i es₁ ∧
      ((SameDocument id k s.world t.world ∧ ¬ (find.fail = none ∧ doc.uploaderId = user.id)) ∨
        ∃ s₁, find.fail = none ∧ doc.uploaderId = user.id ∧
          s₁.pc? i = some (.replacePut user title file doc) ∧
          SameDocument id k s.world s₁.world ∧ Served cfg i id k s₁ es₁ t result) := by
  obtain ⟨find, es₁, s₁, s₂, pc₁, hcalls₁, hsame₁, hadv₁, hpc₁, h₁⟩ := h.next hpc trivial
  refine ⟨find, es₁, hcalls₁, ?_⟩
  by_cases hstart : find.fail = none ∧ doc.uploaderId = user.id
  · obtain ⟨hfind, howner⟩ := hstart
    simp only [advance, hfind, hsame₁.row, hdoc, howner, ne_eq, not_true_eq_false,
      if_false] at hadv₁
    obtain ⟨hw₁, rfl⟩ := Prod.mk.inj (Option.some.inj hadv₁)
    rw [hw₁] at hsame₁
    exact Or.inr ⟨s₂, hfind, howner, hpc₁, hsame₁, h₁⟩
  · have hrefused : ∃ ex, s₁.world = s₂.world ∧ pc₁ = .throw ex := by
      cases hfind : find.fail with
      | some e =>
        simp only [advance, hfind] at hadv₁
        obtain ⟨hw₁, rfl⟩ := Prod.mk.inj (Option.some.inj hadv₁)
        exact ⟨_, hw₁, rfl⟩
      | none =>
        have howner : doc.uploaderId ≠ user.id := fun howner => hstart ⟨hfind, howner⟩
        simp only [advance, hfind, hsame₁.row, hdoc, ne_eq, howner, not_false_eq_true,
          if_true] at hadv₁
        obtain ⟨hw₁, rfl⟩ := Prod.mk.inj (Option.some.inj hadv₁)
        exact ⟨_, hw₁, rfl⟩
    obtain ⟨ex, hw₁, rfl⟩ := hrefused
    obtain ⟨-, hsame₂⟩ := h₁.thrown hpc₁
    rw [hw₁] at hsame₁
    exact Or.inl ⟨hsame₁.trans hsame₂, hstart⟩

/-- What a replacement does: it is refused or its upload fails and nothing happens; or the new
object is stored, and then the update decides. -/
theorem Served.replace (h : Served cfg i id doc.minioKey s es t result)
    (hpc : s.pc? i = some (.replaceFind user id title file))
    (hdoc : s.world.docs.findUnique id = some doc)
    (hobj : s.world.objects doc.minioKey = some object)
    (hlist : ∀ env ∈ ((calls i es).drop 4).take 2, env.fail = none) :
    (SameDocument id doc.minioKey s.world t.world ∧
        ¬ ReplaceLoses user file doc object (calls i es)) ∨
      ∃ find put remove update rest, calls i es = find :: put :: remove :: update :: rest ∧
        doc.uploaderId = user.id ∧ find.fail = none ∧ put.fail = none ∧
        ((update.fail = none ∧ ∃ reply, result = .ok reply) ∨
          (update.fail ≠ none ∧ (∃ ex, result = .error ex) ∧
            t.world.docs.findUnique id = s.world.docs.findUnique id ∧
            t.world.chunks id = s.world.chunks id ∧
            t.world.objects doc.minioKey =
              if remove.fail = none then none
              else if generateMinioKey put file.originalname = doc.minioKey then some file.object
              else some object)) := by
  obtain ⟨find, es₁, hcalls₁, ⟨hsame, hstart⟩ | ⟨s₂, hfind, howner, hpc₁, hsame₁, h₁⟩⟩ :=
    h.lookup hpc hdoc
  · refine Or.inl ⟨hsame, ?_⟩
    rw [hcalls₁]
    rcases calls i es₁ with _ | ⟨put, _ | ⟨remove, _ | ⟨update, rest⟩⟩⟩ <;>
      simp only [ReplaceLoses, not_false_eq_true]
    exact fun hloses => hstart ⟨hloses.2.1, hloses.1⟩
  · obtain ⟨put, es₂, s₃, s₄, pc₂, hcalls₂, hsame₂, hadv₂, hpc₂, h₂⟩ := h₁.next hpc₁ trivial
    have hsame := hsame₁.trans hsame₂
    cases hput : put.fail with
    | some e =>
      simp only [advance, World.uploadFile, hput] at hadv₂
      obtain ⟨hw₂, rfl⟩ := Prod.mk.inj (Option.some.inj hadv₂)
      obtain ⟨-, hsame₃⟩ := h₂.thrown hpc₂
      rw [← hw₂] at hsame₃
      refine Or.inl ⟨hsame.trans hsame₃, ?_⟩
      rw [hcalls₁, hcalls₂]
      rcases calls i es₂ with _ | ⟨remove, _ | ⟨update, rest⟩⟩ <;> simp [ReplaceLoses, hput]
    | none =>
      simp only [advance, World.uploadFile, hput] at hadv₂
      obtain ⟨hw₂, rfl⟩ := Prod.mk.inj (Option.some.inj hadv₂)
      have hrow : s₄.world.docs.findUnique id = s.world.docs.findUnique id := by
        rw [← hsame.row, ← hw₂]
        rfl
      have hchunks : s₄.world.chunks id = s.world.chunks id := by
        rw [← hsame.chunks, ← hw₂]
        rfl
      have hobject : s₄.world.objects doc.minioKey =
          if generateMinioKey put file.originalname = doc.minioKey then some file.object
          else some object := by
        rw [← hw₂, ← hobj, ← hsame.object]
        simp only [World.putObject, Function.update_apply, eq_comm]
        rfl
      have hlist₂ : ∀ env ∈ ((calls i es₂).drop 2).take 2, env.fail = none := by
        rw [hcalls₁, hcalls₂] at hlist
        exact hlist
      obtain ⟨remove, update, rest, hcalls₃, hupd⟩ := h₂.remove hpc₂ (hrow.trans hdoc) hlist₂
      rw [hrow, hchunks, hobject] at hupd
      exact Or.inr ⟨find, put, remove, update, rest, by rw [hcalls₁, hcalls₂, hcalls₃], howner,
        hfind, hput, hupd⟩

/-- **A rejected replacement leaves the row and the object as they were, unless the update of the
row is what fails and the old object had been deleted before, or overwritten.** -/
theorem replace_intact_iff (h : Served cfg i id doc.minioKey s es t result)
    (hpc : s.pc? i = some (.replaceFind user id title file))
    (hdoc : s.world.docs.findUnique id = some doc)
    (hobj : s.world.objects doc.minioKey = some object)
    (hlist : ∀ env ∈ ((calls i es).drop 4).take 2, env.fail = none) :
    ReplaceIntact doc object result t.world ↔ ¬ ReplaceLoses user file doc object (calls i es) := by
  unfold ReplaceIntact
  rw [(Table.findUnique_eq_some.1 hdoc).2]
  rcases h.replace hpc hdoc hobj hlist with ⟨hsame, hkept⟩ |
    ⟨find, put, remove, update, rest, hcalls, howner, hfind, hput, hcases⟩
  · refine ⟨fun _ => hkept, fun _ _ => ⟨hsame.row.trans hdoc, ?_⟩⟩
    rw [hsame.object, hobj, Option.map_some]
  · rw [hcalls]
    rcases hcases with ⟨hupdate, reply, rfl⟩ | ⟨hupdate, herr, hrow, -, hobject⟩
    · exact ⟨fun _ hloses => hloses.2.2.2.1 hupdate, fun _ ⟨ex, hex⟩ => by cases hex⟩
    · rw [hrow, hdoc, hobject]
      simp only [herr, true_implies, ReplaceLoses, howner, hfind, hput, hupdate, ne_eq,
        not_false_eq_true, true_and]
      split_ifs with hremove hkey
      · simp [hremove]
      · simp [hremove, hkey, MulterFile.object]
      · simp [hremove, hkey]

end Replace

/-! A replacement of the uploaded file whose update fails. -/

def secondFile : MulterFile := ⟨"second.txt", "text/plain", [3], 1⟩

/-- The server when the request arrives. -/
def replacing : Sys :=
  (run (step exampleConfig) (Sys.boot World.empty)
    (uploadRun ++ [.request (.replaceFile alice "d0" "second" secondFile)])).getD
    (Sys.boot World.empty)

/-- The steps of the request, with the outcome of the deletion of the old object. -/
def failedUpdate (remove : Env) : List Event :=
  [.resume 2 {}, .resume 2 { uuid := "k1" }, .resume 2 remove,
    .resume 2 { fail := some "connection lost" }]

theorem served_failedUpdate (remove : Env) {t : Sys}
    (h : run (step exampleConfig) replacing (failedUpdate remove) = some t)
    (hans : t.pc? 2 = some (.throw (.Error "connection lost"))) :
    Served exampleConfig 2 "d0" uploadedDoc.minioKey replacing (failedUpdate remove) t
      (.error (.Error "connection lost")) := by
  refine served_of_alone h (fun e he => ?_) hans
  simp only [failedUpdate, List.mem_cons, List.not_mem_nil, or_false] at he
  rcases he with rfl | rfl | rfl | rfl <;> exact Option.some_ne_none _

/-- The deletion of the old object fails as well, and the document is intact. -/
theorem replace_intact_kept :
    ∃ t, run (step exampleConfig) replacing (failedUpdate { fail := some "timeout" }) = some t ∧
      t.world.docs.findUnique "d0" = some uploadedDoc ∧
      (t.world.objects uploadedDoc.minioKey).map StoredObject.body = some [1, 2] := by
  obtain ⟨t, hrun, hans⟩ : ∃ t,
      run (step exampleConfig) replacing (failedUpdate { fail := some "timeout" }) = some t ∧
        t.pc? 2 = some (.throw (.Error "connection lost")) := ⟨_, rfl, rfl⟩
  have hpc : replacing.pc? 2 = some (.replaceFind alice "d0" "second" secondFile) := rfl
  have hobj : replacing.world.objects uploadedDoc.minioKey = some exampleFile.object := by decide
  refine ⟨t, hrun, (replace_intact_iff (served_failedUpdate _ hrun hans) hpc (by decide) hobj
    (by decide)).2 ?_ ⟨_, rfl⟩⟩
  rintro ⟨-, -, -, -, hremove | ⟨hkey, -⟩⟩
  · cases hremove
  · exact absurd hkey (by decide)

theorem replace_not_intact :
    ¬ ∀ (cfg : Config) (i : ℕ) (s t : Sys) (es : List Event) (user : User) (id : String)
        (title : Option String) (file : MulterFile) (doc : KnowledgeDoc) (object : StoredObject)
        (result : Except Exception Reply),
      Served cfg i id doc.minioKey s es t result →
      s.pc? i = some (.replaceFind user id title file) →
      s.world.docs.findUnique id = some doc → s.world.objects doc.minioKey = some object →
      (∀ env ∈ ((calls i es).drop 4).take 2, env.fail = none) →
        ReplaceIntact doc object result t.world := by
  intro h
  obtain ⟨t, hrun, hans, hgone⟩ : ∃ t,
      run (step exampleConfig) replacing (failedUpdate {}) = some t ∧
        t.pc? 2 = some (.throw (.Error "connection lost")) ∧
        t.world.objects uploadedDoc.minioKey = none := ⟨_, rfl, rfl, by decide⟩
  have hkept := (h exampleConfig 2 replacing t (failedUpdate {}) alice "d0" "second" secondFile
    uploadedDoc exampleFile.object _ (served_failedUpdate {} hrun hans) rfl (by decide) (by decide)
    (by decide) ⟨_, rfl⟩).2
  rw [hgone] at hkept
  cases hkept

/-! ### Deletions -/

theorem World.chunks_eq_nil_iff {w : World} {id : String} :
    w.chunks id = [] ↔ ¬ ∃ v ∈ w.vectors, v.knowledgeDocId = id := by
  simp [World.chunks, List.filter_eq_nil_iff]

/-- A deletion that was rejected has left the row, the chunks and the object as they were; one
that was not has taken the row and the chunks. -/
def DeleteIntact (w : World) (doc : KnowledgeDoc) (object : StoredObject)
    (result : Except Exception Reply) (w' : World) : Prop :=
  ((∃ ex, result = .error ex) → w'.docs.findUnique doc.id = some doc ∧
      w'.chunks doc.id = w.chunks doc.id ∧ w'.objects doc.minioKey = some object) ∧
    ((∃ reply, result = .ok reply) → w'.docs.findUnique doc.id = none ∧ w'.chunks doc.id = [])

/-- The object is deleted and the row is not: its deletion fails, or a chunk refers to it. -/
def DeleteLoses (chunks : List VectorizedDoc) : List Env → Prop
  | _ :: remove :: delete :: _ => remove.fail = none ∧ (delete.fail ≠ none ∨ chunks ≠ [])
  | _ => False

section Delete

variable {cfg : Config} {s t : Sys} {es : List Event} {i : ℕ} {user : User} {id : String}
  {doc : KnowledgeDoc} {object : StoredObject} {result : Except Exception Reply}

/-- The deletion of the row: it succeeds, and then there were no chunks, or nothing happens. -/
theorem Served.deleteRow {k : String} (h : Served cfg i id k s es t result)
    (hpc : s.pc? i = some (.deleteRow user id)) (hdoc : s.world.docs.findUnique id = some doc)
    (hlist : ∀ env ∈ ((calls i es).drop 1).take 2, env.fail = none) :
    ∃ delete rest, calls i es = delete :: rest ∧
      ((delete.fail = none ∧ s.world.chunks id = [] ∧ (∃ reply, result = .ok reply) ∧
          t.world.docs.findUnique id = none ∧ t.world.chunks id = []) ∨
        ((delete.fail ≠ none ∨ s.world.chunks id ≠ []) ∧ (∃ ex, result = .error ex) ∧
          SameDocument id k s.world t.world)) := by
  obtain ⟨delete, es₁, s₁, s₂, pc₁, hcalls, hsame, hadv, hpc₁, h₁⟩ := h.next hpc trivial
  refine ⟨delete, _, hcalls, ?_⟩
  have hrefused : ∀ ex, s₁.world = s₂.world → pc₁ = .throw ex →
      (∃ ex, result = .error ex) ∧ SameDocument id k s.world t.world := by
    rintro ex hw rfl
    obtain ⟨hresult, hsame₁⟩ := h₁.thrown hpc₁
    rw [← hw] at hsame₁
    exact ⟨⟨ex, hresult⟩, hsame.trans hsame₁⟩
  cases hfail : delete.fail with
  | some e =>
    simp only [advance, World.delete, hfail] at hadv
    obtain ⟨hw, hpc'⟩ := Prod.mk.inj (Option.some.inj hadv)
    exact Or.inr ⟨Or.inl (Option.some_ne_none e), hrefused _ hw hpc'.symm⟩
  | none =>
    by_cases hchunks : s₁.world.chunks id = []
    · have hno := World.chunks_eq_nil_iff.1 hchunks
      have hmem : id ∈ s₁.world.docs.rows.map KnowledgeDoc.id :=
        Table.mem_keys_of_findUnique (hsame.row.trans hdoc)
      cases hdocs : s₁.world.docs.delete id with
      | none => exact absurd hmem (Table.delete_eq_none.1 hdocs)
      | some docs =>
        simp only [advance, World.delete, hfail, if_neg hno, hdocs] at hadv
        obtain ⟨hw, rfl⟩ := Prod.mk.inj (Option.some.inj hadv)
        rw [hcalls, List.drop_one, List.tail_cons] at hlist
        obtain ⟨hreply, hsame₁⟩ := h₁.listing hpc₁ hlist
        refine Or.inl ⟨rfl, hsame.chunks ▸ hchunks, hreply, ?_, ?_⟩
        · rw [hsame₁.row, ← hw]
          exact Table.findUnique_delete hdocs
        · rw [hsame₁.chunks, ← hw]
          exact hchunks
    · have hyes := not_not.1 (mt World.chunks_eq_nil_iff.2 hchunks)
      simp only [advance, World.delete, hfail, if_pos hyes] at hadv
      obtain ⟨hw, hpc'⟩ := Prod.mk.inj (Option.some.inj hadv)
      exact Or.inr ⟨Or.inr (hsame.chunks ▸ hchunks), hrefused _ hw hpc'.symm⟩

/-- What a deletion by the owner does: the object goes or stays, and then the row decides. -/
theorem Served.deletion (h : Served cfg i id doc.minioKey s es t result)
    (hpc : s.pc? i = some (.deleteFind user id)) (hdoc : s.world.docs.findUnique id = some doc)
    (howner : doc.uploaderId = user.id) (hfind : ∀ env ∈ (calls i es).head?, env.fail = none)
    (hlist : ∀ env ∈ ((calls i es).drop 3).take 2, env.fail = none) :
    ∃ find remove delete rest, calls i es = find :: remove :: delete :: rest ∧
      ((delete.fail = none ∧ s.world.chunks id = [] ∧ (∃ reply, result = .ok reply) ∧
          t.world.docs.findUnique id = none ∧ t.world.chunks id = []) ∨
        ((delete.fail ≠ none ∨ s.world.chunks id ≠ []) ∧ (∃ ex, result = .error ex) ∧
          t.world.docs.findUnique id = some doc ∧ t.world.chunks id = s.world.chunks id ∧
          t.world.objects doc.minioKey =
            if remove.fail = none then none else s.world.objects doc.minioKey)) := by
  obtain ⟨find, es₁, s₁, s₂, pc₁, hcalls₁, hsame₁, hadv₁, hpc₁, h₁⟩ := h.next hpc trivial
  have hfind' : find.fail = none := hfind find (by simp [hcalls₁])
  simp only [advance, hfind', hsame₁.row, hdoc, howner, ne_eq, not_true_eq_false,
    if_false] at hadv₁
  obtain ⟨hw₁, rfl⟩ := Prod.mk.inj (Option.some.inj hadv₁)
  rw [hw₁] at hsame₁
  obtain ⟨remove, es₂, s₃, s₄, pc₂, hcalls₂, hsame₂, hadv₂, hpc₂, h₂⟩ := h₁.next hpc₁ trivial
  have hsame := hsame₁.trans hsame₂
  have hlist₂ : ∀ env ∈ ((calls i es₂).drop 1).take 2, env.fail = none := by
    rw [hcalls₁, hcalls₂] at hlist
    exact hlist
  have hid := (Table.findUnique_eq_some.1 hdoc).2
  -- the object is the only thing that the second call can change
  have hobject : pc₂ = .deleteRow user id ∧ s₄.world.docs = s₃.world.docs ∧
      s₄.world.chunks id = s₃.world.chunks id ∧ s₄.world.objects doc.minioKey =
        if remove.fail = none then none else s₃.world.objects doc.minioKey := by
    cases hfail : remove.fail with
    | some e =>
      simp only [advance, World.deleteFile, hfail] at hadv₂
      obtain ⟨hw₂, rfl⟩ := Prod.mk.inj (Option.some.inj hadv₂)
      rw [← hw₂, hid]
      exact ⟨rfl, rfl, rfl, by simp⟩
    | none =>
      simp only [advance, World.deleteFile, hfail] at hadv₂
      obtain ⟨hw₂, rfl⟩ := Prod.mk.inj (Option.some.inj hadv₂)
      rw [← hw₂, hid]
      exact ⟨rfl, rfl, rfl, by simp [World.removeObject]⟩
  obtain ⟨rfl, hdocs, hchunks, hobject⟩ := hobject
  rw [hsame.chunks] at hchunks
  rw [hsame.object] at hobject
  have hrow : s₄.world.docs.findUnique id = some doc := by rw [hdocs, hsame.row, hdoc]
  obtain ⟨delete, rest, hcalls₃, hdel⟩ := h₂.deleteRow hpc₂ hrow hlist₂
  refine ⟨find, remove, delete, rest, by rw [hcalls₁, hcalls₂, hcalls₃], ?_⟩
  rw [hchunks] at hdel
  refine hdel.imp_right ?_
  rintro ⟨hno, herr, hsame₃⟩
  exact ⟨hno, herr, hsame₃.row.trans hrow, hsame₃.chunks.trans hchunks,
    hsame₃.object.trans hobject⟩

/-- **A rejected deletion leaves the row, the chunks and the object as they were, and an accepted
one takes the row and the chunks, unless the object is deleted and the row cannot be.** -/
theorem delete_intact_iff (h : Served cfg i id doc.minioKey s es t result)
    (hpc : s.pc? i = some (.deleteFind user id)) (hdoc : s.world.docs.findUnique id = some doc)
    (howner : doc.uploaderId = user.id) (hobj : s.world.objects doc.minioKey = some object)
    (hfind : ∀ env ∈ (calls i es).head?, env.fail = none)
    (hlist : ∀ env ∈ ((calls i es).drop 3).take 2, env.fail = none) :
    DeleteIntact s.world doc object result t.world ↔
      ¬ DeleteLoses (s.world.chunks id) (calls i es) := by
  unfold DeleteIntact
  rw [(Table.findUnique_eq_some.1 hdoc).2]
  obtain ⟨find, remove, delete, rest, hcalls, hcases⟩ := h.deletion hpc hdoc howner hfind hlist
  rw [hcalls]
  rcases hcases with ⟨hdelete, hnil, ⟨reply, rfl⟩, hrow, hchunks⟩ |
    ⟨hno, ⟨ex, rfl⟩, hrow, hchunks, hobject⟩
  · constructor
    · rintro - ⟨-, hfail | hsome⟩
      · exact hfail hdelete
      · exact hsome hnil
    · exact fun _ => ⟨(fun ⟨ex, hex⟩ => by cases hex), fun _ => ⟨hrow, hchunks⟩⟩
  · rw [hobject, hobj]
    constructor
    · rintro ⟨hkept, -⟩ ⟨hremove, -⟩
      have hsome := (hkept ⟨ex, rfl⟩).2.2
      rw [if_pos hremove] at hsome
      cases hsome
    · intro hkept
      have hremove : remove.fail ≠ none := fun hremove => hkept ⟨hremove, hno⟩
      exact ⟨fun _ => ⟨hrow, hchunks, if_neg hremove⟩, (fun ⟨reply, hreply⟩ => by cases hreply)⟩

end Delete

/-! A deletion of the uploaded file, of which the worker has written a chunk. -/

/-- The server when the request arrives. -/
def deleting : Sys :=
  let uploaded := (run (step exampleConfig) (Sys.boot World.empty) uploadRun).getD
    (Sys.boot World.empty)
  ⟨{ uploaded.world with vectors := [⟨"v0", "d0"⟩] }, .init, [⟨false, .deleteFind alice "d0"⟩]⟩

/-- The steps of the request, with the outcome of the deletion of the object. -/
def refusedDeletion (remove : Env) : List Event := [.resume 0 {}, .resume 0 remove, .resume 0 {}]

theorem served_refusedDeletion (remove : Env) {t : Sys}
    (h : run (step exampleConfig) deleting (refusedDeletion remove) = some t)
    (hans : t.pc? 0 = some (.throw (.PrismaError "P2003"))) :
    Served exampleConfig 0 "d0" uploadedDoc.minioKey deleting (refusedDeletion remove) t
      (.error (.PrismaError "P2003")) := by
  refine served_of_alone h (fun e he => ?_) hans
  simp only [refusedDeletion, List.mem_cons, List.not_mem_nil, or_false] at he
  rcases he with rfl | rfl | rfl <;> exact Option.some_ne_none _

/-- The deletion of the object fails as well, and the document is intact. -/
theorem delete_intact_kept :
    ∃ t, run (step exampleConfig) deleting (refusedDeletion { fail := some "timeout" }) = some t ∧
      t.world.docs.findUnique "d0" = some uploadedDoc ∧
      t.world.chunks "d0" = [⟨"v0", "d0"⟩] ∧
      t.world.objects uploadedDoc.minioKey = some exampleFile.object := by
  obtain ⟨t, hrun, hans⟩ : ∃ t,
      run (step exampleConfig) deleting (refusedDeletion { fail := some "timeout" }) = some t ∧
        t.pc? 0 = some (.throw (.PrismaError "P2003")) := ⟨_, rfl, rfl⟩
  have hpc : deleting.pc? 0 = some (.deleteFind alice "d0") := rfl
  have hobj : deleting.world.objects uploadedDoc.minioKey = some exampleFile.object := by decide
  refine ⟨t, hrun, ((delete_intact_iff (served_refusedDeletion _ hrun hans) hpc (by decide) rfl
    hobj (by decide) (by decide)).2 ?_).1 ⟨_, rfl⟩⟩
  rintro ⟨hremove, -⟩
  cases hremove

theorem delete_not_intact :
    ¬ ∀ (cfg : Config) (i : ℕ) (s t : Sys) (es : List Event) (user : User) (id : String)
        (doc : KnowledgeDoc) (object : StoredObject) (result : Except Exception Reply),
      Served cfg i id doc.minioKey s es t result →
      s.pc? i = some (.deleteFind user id) →
      s.world.docs.findUnique id = some doc → doc.uploaderId = user.id →
      s.world.objects doc.minioKey = some object →
      (∀ env ∈ (calls i es).head?, env.fail = none) →
      (∀ env ∈ ((calls i es).drop 3).take 2, env.fail = none) →
        DeleteIntact s.world doc object result t.world := by
  intro h
  obtain ⟨t, hrun, hans, hgone⟩ : ∃ t,
      run (step exampleConfig) deleting (refusedDeletion {}) = some t ∧
        t.pc? 0 = some (.throw (.PrismaError "P2003")) ∧
        t.world.objects uploadedDoc.minioKey = none := ⟨_, rfl, rfl, by decide⟩
  have hkept := ((h exampleConfig 0 deleting t (refusedDeletion {}) alice "d0" uploadedDoc
    exampleFile.object _ (served_refusedDeletion {} hrun hans) rfl (by decide) rfl (by decide)
    (by decide) (by decide)).1 ⟨_, rfl⟩).2.2
  rw [hgone] at hkept
  cases hkept

end ProtostarNest.Knowledge
