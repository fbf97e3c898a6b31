import ProtostarNest.Knowledge.Provenance

/-!
# What a user keeps while the server works on

The dispatcher and the worker change the status of a document, its error text and its metadata, for
whoever it belongs to.  Everything else in the row is its owner's.

* `KnowledgeDoc.content`: the row without those columns;
* `Preserved`: a user's documents and their objects are as they were;
* `preserved_step`: each step of a request that does not work for the user preserves them.
-/

namespace ProtostarNest.Knowledge

open Transition Queue

/-- The row without the columns that the dispatcher and the webhook write. -/
def KnowledgeDoc.content (d : KnowledgeDoc) : KnowledgeDoc :=
  { d with status := .UPLOADED, errorMessage := none, metaData := none, updatedAt := 0 }

structure Preserved (u : User) (w w' : World) : Prop where
  contents : (w'.rowsOf u).map KnowledgeDoc.content = (w.rowsOf u).map KnowledgeDoc.content
  objects : ∀ d ∈ w.rowsOf u, w'.objects d.minioKey = w.objects d.minioKey

namespace Preserved

variable {u : User} {w w' w'' : World}

theorem refl (u : User) (w : World) : Preserved u w w := ⟨rfl, fun _ _ => rfl⟩

theorem trans (h : Preserved u w w') (h' : Preserved u w' w'') : Preserved u w w'' where
  contents := h'.contents.trans h.contents
  objects := fun d hd => by
    -- a row of the same content is there in between, with the same key
    have hmem : d.content ∈ (w'.rowsOf u).map KnowledgeDoc.content :=
      h.contents ▸ List.mem_map_of_mem hd
    obtain ⟨d', hd', heq⟩ := List.mem_map.1 hmem
    have hkey : d'.content.minioKey = d.content.minioKey := by rw [heq]
    change d'.minioKey = d.minioKey at hkey
    rw [← h.objects d hd, ← hkey]
    exact h'.objects d' hd'

theorem of_kept (h : Kept u w w') : Preserved u w w' := ⟨by rw [h.rows], h.objects⟩

end Preserved

section Step

variable {cfg : Config} {s s' : Sys} {e : Event} {w w' : World} {env : Env} {pc pc' : Pc} {u : User}

/-- A call of the dispatcher or of a webhook. -/
theorem preserved_of_none (h : Advance cfg w env pc w' pc') (hpc : pc.user = none) :
    Preserved u w w' := by
  cases h with
  | marked doc rest docs hfail hdocs =>
    exact ⟨Table.map_filter_update hdocs (fun _ _ _ => rfl) fun _ _ _ => rfl, fun _ _ => rfl⟩
  | answered dto answers metaData docs hfail hmeta hdocs =>
    exact ⟨Table.map_filter_update hdocs (fun _ _ _ => rfl) fun _ _ _ => rfl, fun _ _ => rfl⟩
  | stop | selected | pushed | pushFailed | markFailed | answerFailed =>
    exact ⟨rfl, fun _ _ => rfl⟩
  | _ => cases hpc

/-- **A step of the server preserves what belongs to a user for whom no request works.** -/
theorem preserved_step (hk : Keyed s) (hs : Owned s) (hfresh : Unrepeated s e)
    (hothers : ∀ (i : ℕ) (op : Op), s.ops[i]? = some op → ∀ v, op.pc.user = some v → v.id ≠ u.id)
    (h : step cfg s e = some s') : Preserved u s.world s'.world := by
  rcases step_quiet_or_calls h with hq | ⟨i, env, op, w, pc, rfl, hc⟩
  · rw [hq.world]
    exact .refl u s.world
  · rw [hc.world]
    cases huser : op.pc.user with
    | none => exact preserved_of_none hc.advance huser
    | some v =>
      exact .of_kept (kept_calls hk hs hc hfresh huser (hothers i op hc.op_eq v huser))

end Step

end ProtostarNest.Knowledge
