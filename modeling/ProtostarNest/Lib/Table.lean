import Mathlib.Data.List.Nodup
import Mathlib.Data.List.Perm.Basic

/-!
# Tables with a unique key

A table over an arbitrary type of rows, with a key that no two rows share, and the four
statements on one row: `findUnique`, `create`, `update` and `delete`.  A `create` of a key that is
taken fails, and so do `update` and `delete` of a missing one.

* `Table key`: the rows, with the uniqueness of their keys as a field;
* `mem_create`, `mem_update`, `mem_delete`: the rows after a statement that succeeded;
* `countP_create`, `countP_update`, `countP_delete`: how many of them satisfy a predicate.
-/

/-- Rows of which no two have the same key. -/
structure Table {ρ κ : Type*} (key : ρ → κ) where
  rows : List ρ
  nodup : (rows.map key).Nodup

namespace Table

variable {ρ κ : Type*} {key : ρ → κ} [DecidableEq κ]

instance [DecidableEq ρ] : DecidableEq (Table key) := fun s t =>
  decidable_of_iff (s.rows = t.rows) ⟨fun h => by cases s; cases t; cases h; rfl, fun h => h ▸ rfl⟩

def empty : Table key := ⟨[], List.nodup_nil⟩

def findUnique (t : Table key) (k : κ) : Option ρ := t.rows.find? fun r => key r = k

def create (t : Table key) (r : ρ) : Option (Table key) :=
  if h : key r ∈ t.rows.map key then none
  else some ⟨t.rows ++ [r], by
    rw [List.map_append]
    exact List.nodup_append.2 ⟨t.nodup, List.nodup_singleton _, by
      rintro a ha b hb rfl
      rw [List.map_singleton, List.mem_singleton] at hb
      exact h (hb ▸ ha)⟩⟩

/-- Replaces the row of key `k` by its image, which must have the same key. -/
def update (t : Table key) (k : κ) (f : ρ → ρ) (hf : ∀ r, key (f r) = key r) :
    Option (Table key) :=
  if k ∈ t.rows.map key then
    some ⟨t.rows.map fun r => if key r = k then f r else r, by
      have hkeys : (t.rows.map fun r => if key r = k then f r else r).map key = t.rows.map key := by
        rw [List.map_map]
        refine List.map_congr_left fun r _ => ?_
        simp only [Function.comp_apply]
        split_ifs
        · exact hf r
        · rfl
      rw [hkeys]
      exact t.nodup⟩
  else none

def delete (t : Table key) (k : κ) : Option (Table key) :=
  if k ∈ t.rows.map key then
    some ⟨t.rows.filter fun r => key r ≠ k, t.nodup.sublist (List.filter_sublist.map key)⟩
  else none

variable {t t' : Table key} {k : κ} {r r' : ρ} {f : ρ → ρ} {hf : ∀ r, key (f r) = key r}

omit [DecidableEq κ] in
theorem eq_of_key (hr : r ∈ t.rows) (hr' : r' ∈ t.rows) (h : key r = key r') : r = r' :=
  List.inj_on_of_nodup_map t.nodup hr hr' h

theorem findUnique_eq_some : t.findUnique k = some r ↔ r ∈ t.rows ∧ key r = k := by
  constructor
  · intro h
    exact ⟨List.mem_of_find?_eq_some h, by simpa using List.find?_some h⟩
  · rintro ⟨hr, rfl⟩
    cases h : t.findUnique (key r) with
    | none => simpa using List.find?_eq_none.1 h r hr
    | some r' =>
      have hkey : key r' = key r := by simpa using List.find?_some h
      rw [eq_of_key (List.mem_of_find?_eq_some h) hr hkey]

theorem findUnique_eq_none : t.findUnique k = none ↔ k ∉ t.rows.map key := by
  rw [findUnique, List.find?_eq_none, List.mem_map]
  simp

/-- A row that was found has its key in the table. -/
theorem mem_keys_of_findUnique (h : t.findUnique k = some r) : k ∈ t.rows.map key := by
  obtain ⟨hr, rfl⟩ := findUnique_eq_some.1 h
  exact List.mem_map_of_mem hr

theorem create_eq_some : t.create r = some t' ↔
    key r ∉ t.rows.map key ∧ t'.rows = t.rows ++ [r] := by
  unfold create
  split_ifs with h
  · exact ⟨fun hc => (nomatch hc), fun hc => absurd h hc.1⟩
  · refine ⟨fun hc => ⟨h, (by cases hc; rfl)⟩, fun hc => ?_⟩
    cases t'
    cases hc.2
    rfl

theorem update_eq_some : t.update k f hf = some t' ↔
    k ∈ t.rows.map key ∧ t'.rows = t.rows.map fun r => if key r = k then f r else r := by
  unfold update
  split_ifs with h
  · refine ⟨fun hc => ⟨h, (by cases hc; rfl)⟩, fun hc => ?_⟩
    cases t'
    cases hc.2
    rfl
  · exact ⟨fun hc => (nomatch hc), fun hc => absurd hc.1 h⟩

theorem delete_eq_some : t.delete k = some t' ↔
    k ∈ t.rows.map key ∧ t'.rows = t.rows.filter fun r => key r ≠ k := by
  unfold delete
  split_ifs with h
  · refine ⟨fun hc => ⟨h, (by cases hc; rfl)⟩, fun hc => ?_⟩
    cases t'
    cases hc.2
    rfl
  · exact ⟨fun hc => (nomatch hc), fun hc => absurd hc.1 h⟩

theorem create_eq_none : t.create r = none ↔ key r ∈ t.rows.map key := by
  unfold create
  split_ifs with h <;> simp [h]

theorem update_eq_none : t.update k f hf = none ↔ k ∉ t.rows.map key := by
  unfold update
  split_ifs with h <;> simp [h]

theorem delete_eq_none : t.delete k = none ↔ k ∉ t.rows.map key := by
  unfold delete
  split_ifs with h <;> simp [h]

/-! ### The rows afterwards -/

theorem mem_create (h : t.create r = some t') : r' ∈ t'.rows ↔ r' ∈ t.rows ∨ r' = r := by
  rw [(create_eq_some.1 h).2, List.mem_append, List.mem_singleton]

/-- Each row after an `update` is an old one of another key, or the image of the row it hit. -/
theorem mem_update (h : t.update k f hf = some t') :
    r' ∈ t'.rows ↔ (r' ∈ t.rows ∧ key r' ≠ k) ∨ ∃ r ∈ t.rows, key r = k ∧ r' = f r := by
  rw [(update_eq_some.1 h).2, List.mem_map]
  constructor
  · rintro ⟨r, hr, rfl⟩
    by_cases hk : key r = k
    · exact Or.inr ⟨r, hr, hk, if_pos hk⟩
    · exact Or.inl ⟨by rwa [if_neg hk], by rwa [if_neg hk]⟩
  · rintro (⟨hr, hk⟩ | ⟨r, hr, hk, rfl⟩)
    · exact ⟨r', hr, if_neg hk⟩
    · exact ⟨r, hr, if_pos hk⟩

theorem mem_delete (h : t.delete k = some t') : r' ∈ t'.rows ↔ r' ∈ t.rows ∧ key r' ≠ k := by
  rw [(delete_eq_some.1 h).2, List.mem_filter, decide_eq_true_iff]

theorem findUnique_delete (h : t.delete k = some t') : t'.findUnique k = none := by
  refine List.find?_eq_none.2 fun r hr => ?_
  rw [decide_eq_true_iff]
  exact ((mem_delete h).1 hr).2

/-! ### Rows that a statement does not concern -/

section Filter

variable {p : ρ → Bool}

theorem filter_create (h : t.create r = some t') (hp : p r = false) :
    t'.rows.filter p = t.rows.filter p := by
  rw [(create_eq_some.1 h).2, List.filter_append, List.filter_singleton, hp]
  simp

theorem filter_update (h : t.update k f hf = some t')
    (hp : ∀ r ∈ t.rows, key r = k → p r = false ∧ p (f r) = false) :
    t'.rows.filter p = t.rows.filter p := by
  rw [(update_eq_some.1 h).2]
  clear h
  generalize t.rows = rows at hp
  induction rows with
  | nil => rfl
  | cons r rows ih =>
    rw [List.map_cons, List.filter_cons, List.filter_cons,
      ih fun r' hr' => hp r' (List.mem_cons_of_mem _ hr')]
    by_cases hk : key r = k
    · obtain ⟨hr, hfr⟩ := hp r List.mem_cons_self hk
      rw [if_pos hk, hr, hfr]
      rfl
    · rw [if_neg hk]

/-- An update that touches neither the predicate nor the columns that are looked at. -/
theorem map_filter_update {α : Type*} {g : ρ → α} (h : t.update k f hf = some t')
    (hp : ∀ r ∈ t.rows, key r = k → p (f r) = p r) (hg : ∀ r ∈ t.rows, key r = k → g (f r) = g r) :
    (t'.rows.filter p).map g = (t.rows.filter p).map g := by
  rw [(update_eq_some.1 h).2]
  clear h
  generalize t.rows = rows at hp hg
  induction rows with
  | nil => rfl
  | cons r rows ih =>
    have hrows := ih (fun r' hr' => hp r' (List.mem_cons_of_mem _ hr'))
      fun r' hr' => hg r' (List.mem_cons_of_mem _ hr')
    rw [List.map_cons, List.filter_cons, List.filter_cons]
    by_cases hk : key r = k
    · rw [if_pos hk, hp r List.mem_cons_self hk]
      split_ifs
      · rw [List.map_cons, List.map_cons, hrows, hg r List.mem_cons_self hk]
      · exact hrows
    · rw [if_neg hk]
      split_ifs
      · rw [List.map_cons, List.map_cons, hrows]
      · exact hrows

theorem filter_delete (h : t.delete k = some t') (hp : ∀ r ∈ t.rows, key r = k → p r = false) :
    t'.rows.filter p = t.rows.filter p := by
  rw [(delete_eq_some.1 h).2, List.filter_filter]
  refine List.filter_congr fun r hr => ?_
  by_cases hk : key r = k
  · rw [hp r hr hk, Bool.false_and]
  · simp [hk]

end Filter

variable (p : ρ → Bool)

theorem countP_create (h : t.create r = some t') :
    t'.rows.countP p = t.rows.countP p + if p r then 1 else 0 := by
  rw [(create_eq_some.1 h).2, List.countP_append, List.countP_singleton]

theorem countP_update (h : t.update k f hf = some t') (hp : ∀ r, p (f r) = p r) :
    t'.rows.countP p = t.rows.countP p := by
  rw [(update_eq_some.1 h).2, List.countP_map]
  refine List.countP_congr fun r _ => ?_
  simp only [Function.comp_apply]
  split_ifs
  · rw [hp]
  · rfl

theorem countP_delete (h : t.delete k = some t') : t'.rows.countP p ≤ t.rows.countP p := by
  rw [(delete_eq_some.1 h).2]
  exact List.filter_sublist.countP_le

end Table
