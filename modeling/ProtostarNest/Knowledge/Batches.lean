import ProtostarNest.Knowledge.Cluster
import ProtostarNest.Knowledge.Dispatch

/-!
# Overlapping dispatchers

A run of `dispatchPendingTasks` selects up to ten uploaded rows, and then pushes and marks one
after the other.  A row stays selectable until it is marked, so a run that starts in between, on
the same instance or on another one, selects it again.

* `Pc.batch`, `Pc.unpushed`, `Pc.marking`: what a dispatcher still has to do;
* `Exclusive`: no version has been pushed twice, the batches are apart, and an uploaded row
  whose version has been pushed is about to be marked;
* `dispatchedOnce_of_meets`: if no run selects a row of another one's batch, each version is
  pushed at most once;
* `overlap_dispatchedTwice`: two instances that dispatch at the same time.
-/

namespace ProtostarNest.Knowledge

open Transition Queue

/-- A version of a document, as far as the worker can tell. -/
def KnowledgeDoc.entry (d : KnowledgeDoc) : String × String := (d.id, d.minioKey)

def Job.entry (job : Job) : String × String := (job.docId, job.minioKey)

/-- The versions that have been pushed to `ai:job:queue`. -/
def World.dispatches (w : World) : List (String × String) := w.jobs.map Job.entry

namespace Pc

/-- The rows of the dispatcher that it has not dealt with. -/
def batch : Pc → List KnowledgeDoc
  | .dispatchPush doc rest => doc :: rest
  | .dispatchUpdate doc rest => doc :: rest
  | _ => []

/-- The rows that it has not pushed. -/
def unpushed : Pc → List KnowledgeDoc
  | .dispatchPush doc rest => doc :: rest
  | .dispatchUpdate _ rest => rest
  | _ => []

/-- The row that it has pushed and not marked. -/
def marking : Pc → Option KnowledgeDoc
  | .dispatchUpdate doc _ => some doc
  | _ => none

/-- The batch that it selects. -/
def selects (env : Env) : Pc → List KnowledgeDoc
  | .dispatchFind => env.order.take DISPATCH_TAKE
  | _ => []

/-- The version that the step gives to a row. -/
def naming (env : Env) : Pc → Option (String × String)
  | .processCreate _ _ minioKey => some (env.id, minioKey)
  | .replaceUpdate _ id _ _ minioKey => some (id, minioKey)
  | _ => none

/-- Calls of the object storage. -/
def AtStorage : Pc → Prop
  | .processPut _ _ => True
  | .replacePut _ _ _ _ => True
  | .replaceDeleteOld _ _ _ _ _ => True
  | .deleteObject _ _ => True
  | _ => False

instance (pc : Pc) : Decidable pc.AtStorage := by
  rcases pc with _ | _ <;> first | exact instDecidableTrue | exact instDecidableFalse

theorem batch_dispatchNext (docs : List KnowledgeDoc) :
    (dispatchNext docs).batch = docs ∧ (dispatchNext docs).unpushed = docs ∧
      (dispatchNext docs).marking = none := by
  cases docs <;> exact ⟨rfl, rfl, rfl⟩

theorem unpushed_sublist_batch (pc : Pc) : pc.unpushed.Sublist pc.batch := by
  cases pc with
  | dispatchUpdate doc rest => exact List.sublist_cons_self _ _
  | _ => exact List.Sublist.refl _

theorem mem_batch_of_marking {pc : Pc} {doc : KnowledgeDoc} (h : pc.marking = some doc) :
    doc ∈ pc.batch := by
  cases pc with
  | dispatchUpdate doc' rest => cases h; exact List.mem_cons_self
  | _ => cases h

theorem not_atStorage_of_marking {pc : Pc} {doc : KnowledgeDoc} (h : pc.marking = some doc) :
    ¬ pc.AtStorage := by
  cases pc with
  | dispatchUpdate doc' rest => exact id
  | _ => cases h

theorem Idle.batch {pc : Pc} (h : pc.Idle) : pc.batch = [] := by
  cases pc <;> first | rfl | exact h.elim

end Pc

section Advance

variable {cfg : Config} {w w' : World} {env : Env} {pc pc' : Pc}

/-- What a step does to the jobs and to the batch of its request: it pushes the next row, it
selects a batch, or it goes on with rows that it has not pushed. -/
theorem Advance.batches (h : Advance cfg w env pc w' pc') :
    (∃ doc rest, pc = .dispatchPush doc rest ∧ pc' = .dispatchUpdate doc rest ∧
        w' = { w with jobs := w.jobs ++ [doc.job] }) ∨
      (w'.jobs = w.jobs ∧ pc'.marking = none ∧ pc'.unpushed = pc'.batch ∧
        ((IsPending w env.order ∧ pc'.batch = env.order.take DISPATCH_TAKE ∧
            pc.selects env = pc'.batch) ∨
          pc'.batch.Sublist pc.unpushed)) := by
  have hnext : ∀ docs, (Pc.dispatchNext docs).marking = none ∧
      (Pc.dispatchNext docs).unpushed = (Pc.dispatchNext docs).batch := by
    intro docs
    obtain ⟨hbatch, hunpushed, hmarking⟩ := Pc.batch_dispatchNext docs
    exact ⟨hmarking, hunpushed.trans hbatch.symm⟩
  have hrest : ∀ rest docs : List KnowledgeDoc, rest.Sublist docs →
      (Pc.dispatchNext rest).batch.Sublist docs := by
    intro rest docs hsub
    rw [(Pc.batch_dispatchNext rest).1]
    exact hsub
  cases h with
  | pushed doc rest hfail => exact Or.inl ⟨doc, rest, rfl, rfl, rfl⟩
  | selected horder =>
    exact Or.inr ⟨rfl, (hnext _).1, (hnext _).2,
      Or.inl ⟨horder, (Pc.batch_dispatchNext _).1, (Pc.batch_dispatchNext _).1.symm⟩⟩
  | pushFailed doc rest hfail =>
    exact Or.inr ⟨rfl, (hnext _).1, (hnext _).2, Or.inr (hrest _ _ (List.sublist_cons_self _ _))⟩
  | marked doc rest docs hfail hdocs =>
    exact Or.inr ⟨rfl, (hnext _).1, (hnext _).2, Or.inr (hrest _ _ (List.Sublist.refl _))⟩
  | markFailed doc rest hfail =>
    exact Or.inr ⟨rfl, (hnext _).1, (hnext _).2, Or.inr (hrest _ _ (List.Sublist.refl _))⟩
  | _ => exact Or.inr ⟨rfl, rfl, rfl, Or.inr (List.nil_sublist _)⟩

/-- The row that a dispatcher was about to mark is marked by its step, unless it is gone. -/
theorem Advance.log_of_marking (h : Advance cfg w env pc w' pc') {doc d : KnowledgeDoc}
    (hpc : pc.marking = some doc) (hfail : env.fail = none) (hd : d ∈ w.docs.rows)
    (hid : d.id = doc.id) : w'.log d.id ≠ w.log d.id := by
  intro hlog
  cases h with
  | stop pc result hstop =>
    cases pc with
    | dispatchUpdate doc rest => exact Option.some_ne_none _ hstop
    | _ => cases hpc
  | marked doc rest docs hfail hdocs =>
    cases hpc
    rw [hid] at hlog
    exact List.cons_ne_self _ _ ((World.log_commit_self rfl).symm.trans hlog)
  | markFailed doc rest hno =>
    cases hpc
    rcases hno with hno | hno
    · exact hno hfail
    · exact hno (hid ▸ List.mem_map_of_mem hd)
  | _ => cases hpc

end Advance

/-- The rows of a batch are different documents. -/
theorem nodup_entries_of_isPending {w : World} {rows : List KnowledgeDoc} (h : IsPending w rows) :
    (rows.map KnowledgeDoc.entry).Nodup := by
  have hids : (rows.map KnowledgeDoc.id).Nodup := by
    refine ((h.1.map KnowledgeDoc.id).nodup_iff).2 ?_
    exact w.docs.nodup.sublist (List.filter_sublist.map _)
  refine List.Nodup.of_map Prod.fst ?_
  rw [List.map_map]
  exact hids

theorem mem_of_isPending {w : World} {rows : List KnowledgeDoc} (h : IsPending w rows)
    {d : KnowledgeDoc} (hd : d ∈ rows) : d ∈ w.docs.rows ∧ d.status = .UPLOADED := by
  obtain ⟨hmem, hstatus⟩ := List.mem_filter.1 (h.1.mem_iff.1 hd)
  exact ⟨hmem, of_decide_eq_true hstatus⟩

/-! ### The invariant -/

/-- No version has been pushed twice. -/
def DispatchedOnce (w : World) : Prop := w.dispatches.Nodup

instance (w : World) : Decidable (DispatchedOnce w) :=
  inferInstanceAs (Decidable w.dispatches.Nodup)

structure Exclusive (c : Cluster) : Prop where
  once : DispatchedOnce c.world
  batch_nodup : ∀ (p : ℕ × ℕ) (op : Op), c.op? p = some op →
    (op.pc.batch.map KnowledgeDoc.entry).Nodup
  unpushed : ∀ (p : ℕ × ℕ) (op : Op), c.op? p = some op → ∀ d ∈ op.pc.unpushed,
    d.entry ∉ c.world.dispatches
  apart : ∀ (p q : ℕ × ℕ) (op op' : Op), p ≠ q → c.op? p = some op → c.op? q = some op' →
    ∀ d ∈ op.pc.batch, ∀ d' ∈ op'.pc.batch, d.entry ≠ d'.entry
  marking : ∀ d ∈ c.world.docs.rows, d.status = .UPLOADED → d.entry ∈ c.world.dispatches →
    ∃ (p : ℕ × ℕ) (op : Op) (doc : KnowledgeDoc), c.op? p = some op ∧
      op.pc.marking = some doc ∧ doc.entry = d.entry

/-- No call of Redis or of the database fails. -/
def RedisAndDatabaseUp (c : Cluster) : ℕ × Event → Prop
  | (k, .resume i env) => ∀ pc ∈ c.pc? (k, i), ¬ pc.AtStorage → env.fail = none
  | (_, .request _) => True

instance (c : Cluster) : (e : ℕ × Event) → Decidable (RedisAndDatabaseUp c e)
  | (_, .request _) => instDecidableTrue
  | (k, .resume i _) => inferInstanceAs (Decidable (∀ pc ∈ c.pc? (k, i), _))

/-- A run of the dispatcher selects no row that is in the batch of another one. -/
def BatchesApart (c : Cluster) : ℕ × Event → Prop
  | (k, .resume i env) => ∀ pc ∈ c.pc? (k, i), ∀ d ∈ pc.selects env,
      ∀ op ∈ c.ops, ∀ d' ∈ op.pc.batch, d'.entry ≠ d.entry
  | (_, .request _) => True

instance (c : Cluster) : (e : ℕ × Event) → Decidable (BatchesApart c e)
  | (_, .request _) => instDecidableTrue
  | (k, .resume i _) => inferInstanceAs (Decidable (∀ pc ∈ c.pc? (k, i), _))

/-- A new version of a document has a key with which the document has not been dispatched. -/
def VersionsNew (c : Cluster) : ℕ × Event → Prop
  | (k, .resume i env) => ∀ pc ∈ c.pc? (k, i), ∀ v ∈ pc.naming env, v ∉ c.world.dispatches
  | (_, .request _) => True

instance (c : Cluster) : (e : ℕ × Event) → Decidable (VersionsNew c e)
  | (_, .request _) => instDecidableTrue
  | (k, .resume i _) => inferInstanceAs (Decidable (∀ pc ∈ c.pc? (k, i), _))

section Exclusive

variable {cfg : Config} {c c' : Cluster} {p : ℕ × ℕ} {env : Env} {op : Op} {w : World} {pc : Pc}

theorem exclusive_quiet (hs : Exclusive c) (h : Cluster.Quiet c c') : Exclusive c' := by
  -- what is in a batch is in the batch of a request that has not moved
  have hold : ∀ (p : ℕ × ℕ) (op : Op), c'.op? p = some op → c.op? p = some op ∨
      op.pc.batch = [] := fun p op hop => (h.old_or_idle p op hop).imp_right Pc.Idle.batch
  have hunpushed : ∀ op : Op, op.pc.batch = [] → op.pc.unpushed = [] := fun op hnil =>
    List.sublist_nil.1 (hnil ▸ op.pc.unpushed_sublist_batch)
  refine ⟨?_, ?_, ?_, ?_, ?_⟩
  · rw [DispatchedOnce, h.world]
    exact hs.once
  · intro p op hop
    rcases hold p op hop with hop | hnil
    · exact hs.batch_nodup p op hop
    · rw [hnil]
      exact List.nodup_nil
  · intro p op hop d hd
    rw [h.world]
    rcases hold p op hop with hop | hnil
    · exact hs.unpushed p op hop d hd
    · rw [hunpushed op hnil] at hd
      cases hd
  · intro p q op op' hpq hop hop' d hd d' hd'
    rcases hold p op hop with hop | hnil
    · rcases hold q op' hop' with hop' | hnil
      · exact hs.apart p q op op' hpq hop hop' d hd d' hd'
      · rw [hnil] at hd'
        cases hd'
    · rw [hnil] at hd
      cases hd
  · intro d hd hstatus hpushed
    rw [h.world] at hd hpushed
    obtain ⟨p, op, doc, hop, hmark, heq⟩ := hs.marking d hd hstatus hpushed
    refine ⟨p, op, doc, (h.kept p op hop).resolve_right fun hidle => ?_, hmark, heq⟩
    have hmem := Pc.mem_batch_of_marking hmark
    rw [hidle.batch] at hmem
    cases hmem

section Calls

variable (hs : Exclusive c) (hc : Cluster.Calls cfg c c' p env op w pc)
  (hapart : ∀ d ∈ op.pc.selects env, ∀ op' ∈ c.ops, ∀ d' ∈ op'.pc.batch, d'.entry ≠ d.entry)

include hs hc hapart in
/-- What the request has in its batch after the step is in nobody else's. -/
theorem apart_calls {q : ℕ × ℕ} {op' : Op} (hq : q ≠ p) (hop' : c.op? q = some op') :
    ∀ d ∈ pc.batch, ∀ d' ∈ op'.pc.batch, d.entry ≠ d'.entry := by
  intro d hd d' hd'
  rcases hc.advance.batches with ⟨doc, rest, hpc, rfl, -⟩ |
    ⟨-, -, -, ⟨-, -, hselects⟩ | hsub⟩
  · exact hs.apart p q op op' hq.symm hc.op_eq hop' d (hpc ▸ hd) d' hd'
  · rw [← hselects] at hd
    exact (hapart d hd op' (Cluster.mem_ops.2 ⟨q, hop'⟩) d' hd').symm
  · have hd₀ := op.pc.unpushed_sublist_batch.subset (hsub.subset hd)
    exact hs.apart p q op op' hq.symm hc.op_eq hop' d hd₀ d' hd'

include hs hc in
theorem batch_nodup_calls : (pc.batch.map KnowledgeDoc.entry).Nodup := by
  have hnodup := hs.batch_nodup p op hc.op_eq
  rcases hc.advance.batches with ⟨doc, rest, hpc, rfl, -⟩ |
    ⟨-, -, -, ⟨hpending, hbatch, -⟩ | hsub⟩
  · rw [hpc] at hnodup
    exact hnodup
  · rw [hbatch]
    exact (nodup_entries_of_isPending hpending).sublist ((List.take_sublist _ _).map _)
  · exact hnodup.sublist ((hsub.trans op.pc.unpushed_sublist_batch).map _)

include hs hc hapart in
theorem unpushed_calls : ∀ d ∈ pc.unpushed, d.entry ∉ w.dispatches := by
  intro d hd
  rcases hc.advance.batches with ⟨doc, rest, hpc, rfl, rfl⟩ |
    ⟨hjobs, -, hbatch, hcases⟩
  · have hnodup := hs.batch_nodup p op hc.op_eq
    rw [hpc] at hnodup
    have hne : d.entry ≠ doc.entry := fun heq =>
      (List.nodup_cons.1 hnodup).1 (heq ▸ List.mem_map_of_mem hd)
    have hold := hs.unpushed p op hc.op_eq d (hpc ▸ List.mem_cons_of_mem _ hd)
    intro hmem
    rw [World.dispatches, List.map_append, List.mem_append] at hmem
    rcases hmem with hmem | hmem
    · exact hold hmem
    · exact hne (List.mem_singleton.1 hmem)
  · rw [World.dispatches, hjobs]
    rw [hbatch] at hd
    rcases hcases with ⟨hpending, htake, hselects⟩ | hsub
    · intro hpushed
      obtain ⟨hrow, hstatus⟩ := mem_of_isPending hpending (List.mem_of_mem_take (htake ▸ hd))
      obtain ⟨q, op', doc, hop', hmark, heq⟩ := hs.marking d hrow hstatus hpushed
      exact hapart d (hselects ▸ hd) op' (Cluster.mem_ops.2 ⟨q, hop'⟩) doc
        (Pc.mem_batch_of_marking hmark) heq
    · exact hs.unpushed p op hc.op_eq d (hsub.subset hd)

include hs hc in
/-- A push concerns no row that another dispatcher still has to push. -/
theorem unpushed_other {q : ℕ × ℕ} {op' : Op} (hq : q ≠ p) (hop' : c.op? q = some op') :
    ∀ d ∈ op'.pc.unpushed, d.entry ∉ w.dispatches := by
  intro d hd
  have hold := hs.unpushed q op' hop' d hd
  rcases hc.advance.batches with ⟨doc, rest, hpc, -, rfl⟩ | ⟨hjobs, -⟩
  · intro hmem
    rw [World.dispatches, List.map_append, List.mem_append] at hmem
    rcases hmem with hmem | hmem
    · exact hold hmem
    · have hdoc : doc ∈ op.pc.batch := hpc ▸ List.mem_cons_self
      exact hs.apart q p op' op hq hop' hc.op_eq d (op'.pc.unpushed_sublist_batch.subset hd) doc
        hdoc (List.mem_singleton.1 hmem)
  · rw [World.dispatches, hjobs]
    exact hold

include hs hc in
theorem once_calls : DispatchedOnce w := by
  rcases hc.advance.batches with ⟨doc, rest, hpc, -, rfl⟩ | ⟨hjobs, -⟩
  · have hnew := hs.unpushed p op hc.op_eq doc (hpc ▸ List.mem_cons_self)
    rw [DispatchedOnce, World.dispatches, List.map_append]
    refine List.nodup_append.2 ⟨hs.once, List.nodup_singleton _, ?_⟩
    rintro x hx y hy rfl
    obtain rfl : x = doc.entry := List.mem_singleton.1 hy
    exact hnew hx
  · rw [DispatchedOnce, World.dispatches, hjobs]
    exact hs.once

omit hapart in
include hs hc in
/-- An uploaded row that was there before and whose version has been pushed is about to be
marked. -/
theorem marking_calls (hup : ¬ op.pc.AtStorage → env.fail = none) {d : KnowledgeDoc}
    (hd : d ∈ c.world.docs.rows) (hlog : w.log d.id = c.world.log d.id)
    (hstatus : d.status = .UPLOADED) (hpushed : d.entry ∈ w.dispatches) :
    ∃ (q : ℕ × ℕ) (op' : Op) (doc : KnowledgeDoc), c'.op? q = some op' ∧
      op'.pc.marking = some doc ∧ doc.entry = d.entry := by
  have hpast : d.entry ∈ c.world.dispatches → ∃ (q : ℕ × ℕ) (op' : Op) (doc : KnowledgeDoc),
      c'.op? q = some op' ∧ op'.pc.marking = some doc ∧ doc.entry = d.entry := by
    intro hpushed
    obtain ⟨q, op', doc, hop', hmark, heq⟩ := hs.marking d hd hstatus hpushed
    refine ⟨q, op', doc, (hc.op_ne q ?_).trans hop', hmark, heq⟩
    rintro rfl
    -- the request was about to mark this row, and has done so
    obtain rfl := Option.some.inj (hc.op_eq.symm.trans hop')
    exact hc.advance.log_of_marking hmark (hup (Pc.not_atStorage_of_marking hmark)) hd
      (congrArg Prod.fst heq).symm hlog
  rcases hc.advance.batches with ⟨doc, rest, -, rfl, rfl⟩ | ⟨hjobs, -⟩
  · rw [World.dispatches, List.map_append, List.mem_append] at hpushed
    rcases hpushed with hpushed | hpushed
    · exact hpast hpushed
    · exact ⟨p, _, doc, hc.op_self, rfl, (List.mem_singleton.1 hpushed).symm⟩
  · rw [World.dispatches, hjobs] at hpushed
    exact hpast hpushed

end Calls

theorem exclusive_calls (hs : Exclusive c) (hc : Cluster.Calls cfg c c' p env op w pc)
    (hup : ¬ op.pc.AtStorage → env.fail = none)
    (hapart : ∀ d ∈ op.pc.selects env, ∀ op' ∈ c.ops, ∀ d' ∈ op'.pc.batch, d'.entry ≠ d.entry)
    (hnew : ∀ v ∈ op.pc.naming env, v ∉ c.world.dispatches) : Exclusive c' := by
  refine ⟨?_, ?_, ?_, ?_, ?_⟩
  · rw [hc.world]
    exact once_calls hs hc
  · intro q op' hop'
    rcases hc.op_cases hop' with ⟨rfl, rfl⟩ | ⟨hq, hop'⟩
    · exact batch_nodup_calls hs hc
    · exact hs.batch_nodup q op' hop'
  · intro q op' hop'
    rw [hc.world]
    rcases hc.op_cases hop' with ⟨rfl, rfl⟩ | ⟨hq, hop'⟩
    · exact unpushed_calls hs hc hapart
    · exact unpushed_other hs hc hq hop'
  · intro q r op₁ op₂ hqr hop₁ hop₂
    rcases hc.op_cases hop₁ with ⟨rfl, rfl⟩ | ⟨hq, hop₁⟩
    · rcases hc.op_cases hop₂ with ⟨rfl, rfl⟩ | ⟨hr, hop₂⟩
      · exact absurd rfl hqr
      · exact apart_calls hs hc hapart hr hop₂
    · rcases hc.op_cases hop₂ with ⟨rfl, rfl⟩ | ⟨hr, hop₂⟩
      · exact fun d hd d' hd' => (apart_calls hs hc hapart hq hop₁ d' hd' d hd).symm
      · exact hs.apart q r op₁ op₂ hqr hop₁ hop₂
  · intro d hd hstatus hpushed
    rw [hc.world] at hd hpushed
    -- a new version has not been pushed, and neither does its step push anything
    have hnone : op.pc.naming env ≠ some d.entry := by
      intro hnaming
      rcases hc.advance.batches with ⟨doc, rest, hpush, -, -⟩ | ⟨hjobs, -⟩
      · rw [hpush] at hnaming
        cases hnaming
      · rw [World.dispatches, hjobs] at hpushed
        exact hnew d.entry hnaming hpushed
    generalize hpc : op.pc = pc₀ at hnone
    have hrow := hc.advance.row hd
    rw [hpc] at hrow
    cases hrow with
    | same _ _ hd₀ hlog => exact marking_calls hs hc hup hd₀ hlog hstatus hpushed
    | created user file minioKey hfail hlog => exact absurd rfl hnone
    | replaced user title file minioKey d₀ hfail hd₀ hlog => exact absurd rfl hnone
    | dispatched doc rest d₀ hfail hd₀ hid hlog => cases hstatus
    | answered dto answers metaData d₀ hfail hmeta hd₀ hid hlog =>
      exact absurd hstatus dto.status_ne_uploaded

theorem Exclusive.step {e : ℕ × Event} (hs : Exclusive c) (hup : RedisAndDatabaseUp c e)
    (hapart : BatchesApart c e) (hnew : VersionsNew c e) (h : Cluster.step cfg c e = some c') :
    Exclusive c' := by
  rcases Cluster.step_cases h with hq | ⟨k, i, env, op, w, pc, rfl, hc⟩
  · exact exclusive_quiet hs hq
  · have hpc := Cluster.pc?_of_op? hc.op_eq
    exact exclusive_calls hs hc (hup op.pc hpc) (hapart op.pc hpc) (hnew op.pc hpc)

theorem exclusive_boot (n : ℕ) : Exclusive (Cluster.boot World.empty n) := by
  have hnone : ∀ p op, (Cluster.boot World.empty n).op? p ≠ some op := by
    intro p op
    rw [Cluster.op?_boot]
    exact Option.some_ne_none op ∘ Eq.symm
  exact ⟨List.nodup_nil, fun p op hop => absurd hop (hnone p op),
    fun p op hop => absurd hop (hnone p op), fun p _ op _ _ hop => absurd hop (hnone p op),
    fun d hd => absurd hd List.not_mem_nil⟩

/-- **If no run of the dispatcher selects a row of another one's batch, then no version is pushed
twice, on any number of instances.** -/
theorem dispatchedOnce_of_meets (cfg : Config) (n : ℕ) (es : List (ℕ × Event))
    (hup : Meets (Cluster.step cfg) RedisAndDatabaseUp (Cluster.boot World.empty n) es)
    (hapart : Meets (Cluster.step cfg) BatchesApart (Cluster.boot World.empty n) es)
    (hnew : Meets (Cluster.step cfg) VersionsNew (Cluster.boot World.empty n) es) :
    ∀ c, Visits (Cluster.step cfg) (Cluster.boot World.empty n) es c →
      DispatchedOnce c.world := by
  intro c hc
  have hkeep : ∀ c e c', Exclusive c →
      (RedisAndDatabaseUp c e ∧ BatchesApart c e ∧ VersionsNew c e) →
        Cluster.step cfg c e = some c' → Exclusive c' :=
    fun c e c' hs hC hstep => hs.step hC.1 hC.2.1 hC.2.2 hstep
  exact (invariant_of_meets hkeep (exclusive_boot n) (hup.and (hapart.and hnew)) c hc).once

end Exclusive

/-! Two instances, one uploaded row. -/

/-- The upload on the first instance. -/
def uploadOnFirst : List (ℕ × Event) := uploadRun.map (Prod.mk 0)

/-- The second instance dispatches after the first one has marked the row. -/
def dispatchInTurn : List (ℕ × Event) :=
  uploadOnFirst ++
    [(0, .request .dispatchPendingTasks), (0, .resume 2 { order := [uploadedDoc] }),
      (0, .resume 2 {}), (0, .resume 2 {}), (1, .request .dispatchPendingTasks),
      (1, .resume 0 {})]

/-- Both read the row before one of them marks it. -/
def dispatchAtOnce : List (ℕ × Event) :=
  uploadOnFirst ++
    [(0, .request .dispatchPendingTasks), (1, .request .dispatchPendingTasks),
      (0, .resume 2 { order := [uploadedDoc] }), (1, .resume 0 { order := [uploadedDoc] }),
      (0, .resume 2 {}), (1, .resume 0 {})]

theorem dispatchedOnce_inTurn : ∃ c,
    run (Cluster.step exampleConfig) (Cluster.boot World.empty 2) dispatchInTurn = some c ∧
      c.world.jobs = [uploadedDoc.job] ∧ DispatchedOnce c.world := by
  have hrun : (run (Cluster.step exampleConfig) (Cluster.boot World.empty 2) dispatchInTurn).map
      (fun c => c.world.jobs) = some [uploadedDoc.job] := by decide
  obtain ⟨c, hc, hjobs⟩ := Option.map_eq_some_iff.1 hrun
  exact ⟨c, hc, hjobs, dispatchedOnce_of_meets exampleConfig 2 dispatchInTurn (by decide)
    (by decide) (by decide) c (Visits.of_run hc)⟩

theorem overlap_dispatchedTwice :
    ¬ ∀ (cfg : Config) (n : ℕ) (es : List (ℕ × Event)) (c : Cluster),
      Meets (Cluster.step cfg) RedisAndDatabaseUp (Cluster.boot World.empty n) es →
      Meets (Cluster.step cfg) VersionsNew (Cluster.boot World.empty n) es →
      Visits (Cluster.step cfg) (Cluster.boot World.empty n) es c → DispatchedOnce c.world := by
  intro h
  have hrun : (run (Cluster.step exampleConfig) (Cluster.boot World.empty 2) dispatchAtOnce).map
      (fun c => decide (DispatchedOnce c.world)) = some false := by decide
  obtain ⟨c, hc, hlast⟩ := Visits.of_run_map hrun
  exact of_decide_eq_false hlast (h exampleConfig 2 dispatchAtOnce c (by decide) (by decide) hc)

end ProtostarNest.Knowledge
