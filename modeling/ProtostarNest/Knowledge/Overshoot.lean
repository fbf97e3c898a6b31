import Mathlib.Algebra.GroupWithZero.Nat
import Mathlib.Data.List.FinRange
import ProtostarNest.Knowledge.Answers
import ProtostarNest.Knowledge.Quota

/-!
# How far the personal limit can be exceeded

Two uploads that count before either has created its rows are both admitted.  Each admission
still fits by the count it was given, so a user with `k` uploads in flight has at most `k` times
the limit.

* `Sys.uploading`: the uploads of a user between their count and the end of their tasks;
* `Sys.promised`: the rows of the user with those that the requests in flight may still create;
* `Awaited`: each unfinished task of the user is one of those that an upload waits for, and an
  upload waits for no more tasks than the limit;
* `overshoot_of_meets`: with at most `k` uploads in flight, `k` times the limit is never passed.
-/

namespace ProtostarNest.Knowledge

open Transition Queue

namespace Pc

variable (uploaderId : String)

/-- An upload of the user that has its count and not yet the results of its tasks. -/
def uploads : Pc → Bool
  | .uploadAdmit user _ _ => user.id = uploaderId
  | .uploadJoin user _ => user.id = uploaderId
  | _ => false

/-- The tasks that the request will add. -/
def admits : Pc → ℕ
  | .uploadAdmit user files currentCount =>
      if user.id = uploaderId ∧ currentCount + files.length ≤ PERSONAL_MAX_UPLOADS then files.length
      else 0
  | _ => 0

/-- The rows of the user that may come from the request or task. -/
def promises (pc : Pc) : ℕ := (if pc.creates uploaderId then 1 else 0) + pc.admits uploaderId

end Pc

namespace Sys

def uploading (s : Sys) (uploaderId : String) : ℕ :=
  s.ops.countP fun op => op.pc.uploads uploaderId

def promised (s : Sys) (uploaderId : String) : ℕ :=
  s.world.count uploaderId + (s.ops.map fun op => op.pc.promises uploaderId).sum

end Sys

/-- When an upload of the user gets its count, fewer than `k` others are in flight. -/
def FewerThan (k : ℕ) (uploaderId : String) (s : Sys) : Event → Prop
  | .resume i _ =>
      match s.pc? i with
      | some (.uploadCount user _) => user.id = uploaderId → s.uploading uploaderId < k
      | _ => True
  | .request _ => True

/-- `FewerThan` as a test of the control point, from the number of the uploads in flight. -/
def Pc.fewerThan (k : ℕ) (uploaderId : String) (uploading : ℕ) : Pc → Bool
  | .uploadCount user _ => user.id = uploaderId → uploading < k
  | _ => true

theorem fewerThan_resume_iff {k : ℕ} {u : String} {s : Sys} {i : ℕ} {env : Env} :
    (s.pc? i).all (Pc.fewerThan k u (s.uploading u)) = true ↔
      FewerThan k u s (.resume i env) := by
  cases h : s.pc? i with
  | none => simp [FewerThan, h]
  | some pc =>
    cases pc with
    | uploadCount user files =>
      simp only [FewerThan, h, Option.all_some, Pc.fewerThan, decide_eq_true_iff]
    | _ => simp [FewerThan, h, Pc.fewerThan]

instance (k : ℕ) (u : String) (s : Sys) : (e : Event) → Decidable (FewerThan k u s e)
  | .request _ => instDecidableTrue
  | .resume _ _ => decidable_of_iff _ fewerThan_resume_iff

/-! ### What a step promises -/

section Promises

variable {cfg : Config} {w w' : World} {env : Env} {s s' : Sys} {e : Event} {pc pc' : Pc}
  {u : String}

theorem Pc.Initial.promises (h : pc.Initial) (u : String) : pc.promises u = 0 := by
  cases h <;> rfl

theorem Pc.Local.promises (h : pc.Local pc') (u : String) : pc'.promises u = 0 := by
  cases h <;> rfl

theorem Pc.TaskOf.promises_le {user : User} (h : pc.TaskOf user) (u : String) :
    pc.promises u ≤ if user.id = u then 1 else 0 := by
  cases h with
  | processPut file => simp [Pc.promises, Pc.creates, Pc.admits]
  | refused e => exact Nat.zero_le _

theorem Pc.admits_dispatchNext (docs : List KnowledgeDoc) (u : String) :
    (Pc.dispatchNext docs).admits u = 0 := by
  cases docs <;> rfl

/-- A call promises rows only when it is the count of an upload. -/
theorem Advance.promises (h : Advance cfg w env pc w' pc') (u : String) :
    (∃ user files, pc = .uploadCount user files ∧ w' = w ∧
      pc' = .uploadAdmit user files (w.count user.id)) ∨
    w'.count u + pc'.promises u ≤ w.count u + pc.promises u := by
  have hclaimed := h.claimed u
  have hle : (if pc.creates u then 1 else 0) ≤ pc.promises u := Nat.le_add_right _ _
  have hrest : pc'.admits u = 0 →
      w'.count u + pc'.promises u ≤ w.count u + pc.promises u := by
    intro hnone
    rw [Pc.promises, hnone]
    omega
  cases h with
  | counted user files => exact Or.inl ⟨user, files, rfl, rfl, rfl⟩
  | selected | pushFailed | marked | markFailed =>
    exact Or.inr (hrest (Pc.admits_dispatchNext _ u))
  | _ => exact Or.inr (hrest rfl)

/-- Replacing one request changes a sum over the requests by that request only. -/
theorem sum_set_add {ops : List Op} {i : ℕ} {op : Op} (hop : ops[i]? = some op) (op' : Op)
    (f : Op → ℕ) : ((ops.set i op').map f).sum + f op = (ops.map f).sum + f op' := by
  induction ops generalizing i with
  | nil => cases hop
  | cons op₀ ops ih =>
    cases i with
    | zero =>
      cases hop
      simp only [List.set_cons_zero, List.map_cons, List.sum_cons]
      omega
    | succ i =>
      have hrest := ih (i := i) hop
      simp only [List.set_cons_succ, List.map_cons, List.sum_cons]
      omega

theorem sum_promises_le {tasks : List Op} {user : User} (h : ∀ t ∈ tasks, t.pc.TaskOf user)
    (u : String) : (tasks.map fun op => op.pc.promises u).sum ≤
      if user.id = u then tasks.length else 0 := by
  induction tasks with
  | nil => exact Nat.zero_le _
  | cons t tasks ih =>
    have ht := (h t List.mem_cons_self).promises_le u
    have hrest := ih fun t' ht' => h t' (List.mem_cons_of_mem _ ht')
    rw [List.map_cons, List.sum_cons, List.length_cons]
    split_ifs at ht hrest ⊢ <;> omega

/-- Only the count of an upload promises new rows; those of the user fit by that count. -/
theorem promised_step (h : step cfg s e = some s') (u : String) :
    s'.promised u ≤ s.promised u ∨
      ∃ i env user files, e = .resume i env ∧ s.pc? i = some (.uploadCount user files) ∧
        user.id = u ∧ s.world.count u + files.length ≤ PERSONAL_MAX_UPLOADS ∧
        s'.promised u ≤ s.promised u + files.length := by
  unfold Sys.promised
  rcases step_cases h with ⟨r, op, -, hw, hops, hpc, -⟩ | ⟨i, env, op, rfl, hop, hcases⟩
  · left
    rw [hw, hops, List.map_append, List.sum_append, List.map_singleton, List.sum_singleton,
      hpc.promises]
    omega
  · rcases hcases with ⟨w, pc, hadv, rfl, hops⟩ | ⟨op', hloc, hw, hops⟩ |
      ⟨user, files, currentCount, tasks, ids, hpc, hlimit, hlen, htask, hw, hops⟩
    · have hset := sum_set_add hop { op with pc := pc } fun op => op.pc.promises u
      rw [hops]
      rcases hadv.promises u with ⟨user, files, hcount, hw, rfl⟩ | hle
      · have hnone : op.pc.promises u = 0 := by rw [hcount]; rfl
        simp only [hnone] at hset
        by_cases hfits : user.id = u ∧ s.world.count user.id + files.length ≤ PERSONAL_MAX_UPLOADS
        · obtain ⟨rfl, hfits⟩ := hfits
          refine Or.inr ⟨i, env, user, files, rfl, ?_, rfl, hfits, ?_⟩
          · rw [s.pc?_of_getElem? hop, hcount]
          · have hnew : (Pc.uploadAdmit user files (s.world.count user.id)).promises user.id =
                files.length := by
              simp [Pc.promises, Pc.creates, Pc.admits, hfits]
            rw [hnew] at hset
            rw [hw]
            omega
        · have hnew : (Pc.uploadAdmit user files (s.world.count user.id)).promises u = 0 := by
            simp only [Pc.promises, Pc.creates, Pc.admits, if_neg hfits, Bool.false_eq_true,
              if_false]
          left
          rw [hnew] at hset
          rw [hw]
          omega
      · left
        simp only at hset
        omega
    · left
      have hset := sum_set_add hop op' fun op => op.pc.promises u
      simp only [hloc.promises u] at hset
      rw [hw, hops]
      omega
    · left
      have hop' : (s.ops ++ tasks)[i]? = some op := by
        rw [List.getElem?_append_left (List.getElem?_eq_some_iff.1 hop).1]
        exact hop
      have hset := sum_set_add hop' { op with pc := .uploadJoin user ids }
        fun op => op.pc.promises u
      have hold : op.pc.promises u = if user.id = u then files.length else 0 := by
        rw [hpc]
        simp [Pc.promises, Pc.creates, Pc.admits, hlimit]
      have hnew : (Pc.uploadJoin user ids).promises u = 0 := rfl
      have htasks := sum_promises_le htask u
      rw [hlen] at htasks
      simp only [hold, hnew, List.map_append, List.sum_append] at hset
      rw [hw, hops]
      omega

end Promises

/-! ### What the uploads in flight can promise -/

/-- The unfinished tasks of the user belong to uploads, none of which has more than the limit. -/
structure Awaited (s : Sys) (u : String) : Prop where
  short : ∀ op ∈ s.ops, op.pc.joins.length ≤ PERSONAL_MAX_UPLOADS
  awaited : ∀ (j : ℕ) (op : Op), s.ops[j]? = some op → op.pc.creates u = true →
    ∃ op' ∈ s.ops, op'.pc.uploads u = true ∧ j ∈ op'.pc.joins

section Awaited

variable {cfg : Config} {w w' : World} {env : Env} {s s' : Sys} {e : Event} {pc pc' : Pc}
  {u : String}

theorem Advance.creates (h : Advance cfg w env pc w' pc') (hnew : pc'.creates u = true) :
    pc.creates u = true := by
  cases h with
  | stored user file hfail => exact hnew
  | selected | pushFailed | marked | markFailed => rw [Pc.creates_dispatchNext] at hnew; cases hnew
  | _ => cases hnew

theorem mem_set_of_ne {ops : List Op} {i : ℕ} {op op' : Op} (hop : ops[i]? = some op)
    (hmem : op' ∈ ops) (hne : op' ≠ op) (x : Op) : op' ∈ ops.set i x := by
  obtain ⟨j, hj⟩ := List.mem_iff_getElem?.1 hmem
  refine List.mem_iff_getElem?.2 ⟨j, ?_⟩
  rw [List.getElem?_set_ne]
  · exact hj
  · rintro rfl
    rw [hop] at hj
    exact hne (Option.some.inj hj).symm

/-- A request that has moved without being one of the user's uploads before. -/
theorem Awaited.set {i : ℕ} {op op' : Op} (h : Awaited s u) (hop : s.ops[i]? = some op)
    (hops : s'.ops = s.ops.set i op') (hjoins : op'.pc.joins = [])
    (hcreates : op'.pc.creates u = true → op.pc.creates u = true)
    (hdone : ∀ j ∈ op.pc.joins, ∀ opj, s.ops[j]? = some opj → opj.pc.creates u = false) :
    Awaited s' u where
  short := by
    intro op₀ hop₀
    rw [hops] at hop₀
    rcases List.mem_or_eq_of_mem_set hop₀ with hmem | rfl
    · exact h.short op₀ hmem
    · rw [hjoins]
      exact Nat.zero_le _
  awaited := by
    intro j opj hopj hj
    rw [hops] at hopj
    have hold : ∃ opj', s.ops[j]? = some opj' ∧ opj'.pc.creates u = true := by
      rcases getElem?_set_cases hopj with ⟨rfl, rfl⟩ | ⟨-, hold⟩
      · exact ⟨op, hop, hcreates hj⟩
      · exact ⟨opj, hold, hj⟩
    obtain ⟨opj', hopj', hj'⟩ := hold
    obtain ⟨op₁, hmem, hup, hin⟩ := h.awaited j opj' hopj' hj'
    refine ⟨op₁, ?_, hup, hin⟩
    rw [hops]
    refine mem_set_of_ne hop hmem ?_ op'
    rintro rfl
    rw [hdone j hin opj' hopj'] at hj'
    cases hj'

/-- The tasks of a `Promise.all` that has its results have ended. -/
theorem ended_of_joined {tasks : List ℕ} {result : List (Option KnowledgeDoc)}
    (h : s.joined tasks = some result) {j : ℕ} (hj : j ∈ tasks) {op : Op}
    (hop : s.ops[j]? = some op) : ∃ r, op.pc = .done r := by
  unfold Sys.joined at h
  induction tasks generalizing result with
  | nil => cases hj
  | cons t tasks ih =>
    rw [List.mapM_cons] at h
    obtain ⟨v, hv, h⟩ := Option.bind_eq_some_iff.1 h
    obtain ⟨vs, hvs, -⟩ := Option.bind_eq_some_iff.1 h
    rcases List.mem_cons.1 hj with rfl | hj
    · rw [hop, Option.bind_some] at hv
      exact (Op.settled_of_value hv).2
    · exact ih hvs hj

theorem awaited_admitted {i : ℕ} {op : Op} (hs : Awaited s u) (hop : s.ops[i]? = some op)
    (user : User) (files : List MulterFile) (n : ℕ) (hpc : op.pc = .uploadAdmit user files n)
    (hlimit : n + files.length ≤ PERSONAL_MAX_UPLOADS) :
    Awaited ((s.addAll user files).setPc i op
      (.uploadJoin user (List.range' s.ops.length files.length))) u := by
  obtain ⟨tasks, htasks, hlen, htaskOf⟩ := addAll_ops (s := s) user files
  have hi := (List.getElem?_eq_some_iff.1 hop).1
  have hops : ((s.addAll user files).setPc i op
      (.uploadJoin user (List.range' s.ops.length files.length))).ops = (s.ops ++ tasks).set i
        { op with pc := .uploadJoin user (List.range' s.ops.length files.length) } := by
    rw [Sys.setPc, htasks]
  have hop' : (s.ops ++ tasks)[i]? = some op := by
    rw [List.getElem?_append_left hi]
    exact hop
  constructor
  · intro op₀ hop₀
    rw [hops] at hop₀
    rcases List.mem_or_eq_of_mem_set hop₀ with hmem | rfl
    · rcases List.mem_append.1 hmem with hmem | hmem
      · exact hs.short op₀ hmem
      · rw [(htaskOf op₀ hmem).joins]
        exact Nat.zero_le _
    · show (List.range' s.ops.length files.length).length ≤ _
      rw [List.length_range']
      omega
  · intro j opj hopj hj
    rw [hops] at hopj ⊢
    rcases getElem?_set_cases hopj with ⟨-, rfl⟩ | ⟨-, hold⟩
    · cases hj
    · rcases getElem?_append_cases hold with hold | ⟨k, rfl, hk⟩
      · obtain ⟨op₁, hmem, hup, hin⟩ := hs.awaited j opj hold hj
        refine ⟨op₁, mem_set_of_ne hop' (List.mem_append_left _ hmem) ?_ _, hup, hin⟩
        rintro rfl
        rw [hpc] at hin
        cases hin
      · -- the new tasks are those of the request itself
        have htask := htaskOf opj (List.mem_of_getElem? hk)
        refine ⟨_, List.mem_set (by rw [List.length_append]; omega) _, ?_, ?_⟩
        · by_contra hne
          have huser : user.id ≠ u := by simpa [Pc.uploads] using hne
          rw [htask.creates_of_ne huser] at hj
          cases hj
        · have hlt := (List.getElem?_eq_some_iff.1 hk).1
          exact List.mem_range'_1.2 ⟨Nat.le_add_right _ _, by omega⟩

theorem awaited_step (hs : Awaited s u) (h : step cfg s e = some s') : Awaited s' u := by
  cases e with
  | request r =>
    obtain ⟨op, -, hops, hinitial, -⟩ := receive_cases h
    constructor
    · intro op₀ hop₀
      rw [hops] at hop₀
      rcases List.mem_append.1 hop₀ with hmem | hmem
      · exact hs.short op₀ hmem
      · rw [List.mem_singleton.1 hmem, hinitial.joins]
        exact Nat.zero_le _
    · intro j opj hopj hj
      rw [hops] at hopj
      rcases getElem?_concat_cases hopj with hold | ⟨-, rfl⟩
      · obtain ⟨op₁, hmem, hrest⟩ := hs.awaited j opj hold hj
        exact ⟨op₁, hops ▸ List.mem_append_left _ hmem, hrest⟩
      · rw [hinitial.creates] at hj
        cases hj
  | resume i env =>
    obtain ⟨-, op, hop, hres⟩ := step_resume_iff.1 h
    cases hres with
    | accepted user files n hpc =>
      unfold Sys.accept
      split_ifs with hlimit
      · refine hs.set hop rfl rfl (fun hnew => (by cases hnew)) fun j hj => ?_
        rw [hpc] at hj
        cases hj
      · exact awaited_admitted hs hop user files n hpc (Nat.not_lt.1 hlimit)
    | joined user tasks result hpc hresult =>
      refine hs.set hop rfl rfl (fun hnew => (by cases hnew)) fun j hj opj hopj => ?_
      rw [hpc] at hj
      obtain ⟨r, hdone⟩ := ended_of_joined hresult hj hopj
      rw [hdone]
      rfl
    | released result hpc hqueued =>
      have hjoins : op.pc.joins = [] := by rw [hpc]; rfl
      refine hs.set hop rfl hjoins id fun j hj => ?_
      rw [hjoins] at hj
      cases hj
    | called w pc hcall hadv =>
      have hadv := advance_sound hadv
      have hjoins : op.pc.joins = [] := by
        cases hpc : op.pc with
        | uploadJoin user tasks => rw [hpc] at hcall; exact hcall.elim
        | _ => rfl
      refine hs.set hop rfl hadv.joins hadv.creates fun j hj => ?_
      rw [hjoins] at hj
      cases hj

/-- The tasks of the user are among those of the uploads in flight. -/
theorem Awaited.outstanding_le (h : Awaited s u) : s.outstanding u ≤
    ((s.ops.filter fun op => op.pc.uploads u).flatMap fun op => op.pc.joins).length := by
  rw [Sys.outstanding, ← List.length_findIdxs (s := 0)]
  refine (List.subperm_of_subset List.nodup_findIdxs fun j hj => ?_).length_le
  obtain ⟨hlt, hcreates⟩ := List.mem_findIdxs_iff_exists_getElem_pos.1 hj
  obtain ⟨op, hmem, hup, hin⟩ := h.awaited j _ (List.getElem?_eq_getElem hlt) hcreates
  exact List.mem_flatMap.2 ⟨op, List.mem_filter.2 ⟨hmem, hup⟩, hin⟩

/-- An upload in flight adds and awaits no more tasks than the limit. -/
theorem Pc.admits_add_joins_le (hshort : pc.joins.length ≤ PERSONAL_MAX_UPLOADS) :
    pc.admits u + (if pc.uploads u then pc.joins.length else 0) ≤
      if pc.uploads u then PERSONAL_MAX_UPLOADS else 0 := by
  cases pc with
  | uploadAdmit user files n =>
    by_cases huser : user.id = u
    · simp only [Pc.admits, Pc.uploads, Pc.joins, huser, true_and, decide_true, if_true,
        List.length_nil]
      split_ifs <;> omega
    · simp [Pc.admits, Pc.uploads, huser]
  | uploadJoin user tasks =>
    rw [show (Pc.uploadJoin user tasks).admits u = 0 from rfl, Nat.zero_add]
    split_ifs
    · exact hshort
    · exact Nat.le_refl 0
  | _ => exact Nat.le_refl 0

theorem Awaited.promises_le (h : Awaited s u) :
    (s.ops.map fun op => op.pc.promises u).sum ≤ s.uploading u * PERSONAL_MAX_UPLOADS := by
  have hsum : ∀ ops : List Op, (∀ op ∈ ops, op.pc.joins.length ≤ PERSONAL_MAX_UPLOADS) →
      (ops.map fun op => op.pc.promises u).sum +
        ((ops.filter fun op => op.pc.uploads u).flatMap fun op => op.pc.joins).length ≤
      (ops.countP fun op => op.pc.creates u) +
        (ops.countP fun op => op.pc.uploads u) * PERSONAL_MAX_UPLOADS := by
    intro ops hshort
    induction ops with
    | nil => exact Nat.zero_le _
    | cons op ops ih =>
      have hrest := ih fun op' hop' => hshort op' (List.mem_cons_of_mem _ hop')
      have hop := Pc.admits_add_joins_le (u := u) (hshort op List.mem_cons_self)
      rw [List.map_cons, List.sum_cons, List.countP_cons, List.countP_cons, Nat.add_mul,
        Pc.promises]
      cases hup : op.pc.uploads u with
      | false =>
        rw [List.filter_cons_of_neg (by simp [hup])]
        simp only [hup, Bool.false_eq_true, if_false] at hop ⊢
        omega
      | true =>
        rw [List.filter_cons_of_pos (by simp [hup]), List.flatMap_cons, List.length_append]
        simp only [hup, if_true] at hop ⊢
        omega
  have htasks := h.outstanding_le
  have hops := hsum s.ops h.short
  unfold Sys.outstanding at htasks
  unfold Sys.uploading
  omega

end Awaited

/-! ### The bound -/

section Overshoot

variable {cfg : Config} {s s' : Sys} {e : Event} {u : String} {k : ℕ}

theorem promised_le_step (hs : Awaited s u) (hle : s.promised u ≤ k * PERSONAL_MAX_UPLOADS)
    (hfewer : FewerThan k u s e) (h : step cfg s e = some s') :
    s'.promised u ≤ k * PERSONAL_MAX_UPLOADS := by
  rcases promised_step h u with hstep | ⟨i, env, user, files, rfl, hpc, huser, hfits, hstep⟩
  · exact Nat.le_trans hstep hle
  · rw [FewerThan, hpc] at hfewer
    have hothers : s.uploading u * PERSONAL_MAX_UPLOADS + PERSONAL_MAX_UPLOADS ≤
        k * PERSONAL_MAX_UPLOADS := by
      rw [← Nat.succ_mul]
      exact Nat.mul_le_mul_right _ (hfewer huser)
    have hpromises := hs.promises_le
    unfold Sys.promised at hstep ⊢
    omega

/-- **With at most `k` uploads of a user in flight, the user never has more rows than `k` times the
limit**, whatever the other requests do. -/
theorem overshoot_of_meets (cfg : Config) (w : World) (u : String) (k : ℕ)
    (hw : w.count u ≤ k * PERSONAL_MAX_UPLOADS) (es : List Event)
    (h : Meets (step cfg) (FewerThan k u) (Sys.boot w) es) :
    ∀ s, Visits (step cfg) (Sys.boot w) es s → s.world.count u ≤ k * PERSONAL_MAX_UPLOADS := by
  have hkeep : ∀ s e s', (Awaited s u ∧ s.promised u ≤ k * PERSONAL_MAX_UPLOADS) →
      FewerThan k u s e → step cfg s e = some s' →
        Awaited s' u ∧ s'.promised u ≤ k * PERSONAL_MAX_UPLOADS :=
    fun s e s' hs hfewer hstep =>
      ⟨awaited_step hs.1 hstep, promised_le_step hs.1 hs.2 hfewer hstep⟩
  have hboot : Awaited (Sys.boot w) u ∧ (Sys.boot w).promised u ≤ k * PERSONAL_MAX_UPLOADS :=
    ⟨⟨by simp [Sys.boot], fun j op hop => by cases hop⟩, hw⟩
  intro s hs
  exact Nat.le_trans (Nat.le_add_right _ _) (invariant_of_meets hkeep hboot h s hs).2

end Overshoot

/-- The tasks from `j` on, one for each file of a full upload. -/
def fullTasks (j : ℕ) : List Event :=
  (List.range' j PERSONAL_MAX_UPLOADS).flatMap fun t =>
    [.resume t { uuid := toString t }, .resume t { id := toString t }, .resume t {}]

/-- Two uploads of as many files as the limit: both count no rows, and the second adds its tasks
when those of the first are done. -/
def fullUploadsRun : List Event :=
  let files := List.replicate PERSONAL_MAX_UPLOADS exampleFile
  [.request (.uploadFiles alice files), .request (.uploadFiles alice files),
    .resume 0 {}, .resume 1 {}, .resume 0 {}] ++ fullTasks 2 ++
  [.resume 1 {}] ++ fullTasks (2 + PERSONAL_MAX_UPLOADS)

/-- The bound is reached. -/
theorem overshoot_fullUploads : ∃ s,
    run (step exampleConfig) (Sys.boot World.empty) fullUploadsRun = some s ∧
      s.world.count "alice" = 2 * PERSONAL_MAX_UPLOADS ∧
      ∀ t, Visits (step exampleConfig) (Sys.boot World.empty) fullUploadsRun t →
        t.world.count "alice" ≤ 2 * PERSONAL_MAX_UPLOADS := by
  have hrun : (run (step exampleConfig) (Sys.boot World.empty) fullUploadsRun).map
      (fun s => s.world.count "alice") = some (2 * PERSONAL_MAX_UPLOADS) := by decide +kernel
  obtain ⟨s, hs, hcount⟩ := Option.map_eq_some_iff.1 hrun
  exact ⟨s, hs, hcount, overshoot_of_meets exampleConfig World.empty "alice" 2 (Nat.zero_le _)
    fullUploadsRun (by decide +kernel)⟩

end ProtostarNest.Knowledge
