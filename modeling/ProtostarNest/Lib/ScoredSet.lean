import Mathlib.Order.Lattice
import ProtostarNest.Lib.Table

/-!
# Scored sets

Members of which each has one score in a linear order, the sorted sets of Redis.

* `zadd`, `zremrangebyscore`, `zcard`: a member gets a score, the members up to a score are
  removed, the number of members;
* `mem_zadd`, `mem_zremrangebyscore`: the members afterwards;
* `zcard_pos`, `zcard_zremrangebyscore_of_le`: when members are left.
-/

/-- The members with their scores. -/
abbrev ScoredSet (μ σ : Type*) := Table (Prod.fst : μ × σ → μ)

namespace ScoredSet

variable {μ σ : Type*}

/-- `ZCARD`. -/
def zcard (s : ScoredSet μ σ) : ℕ := s.rows.length

theorem zcard_pos {s : ScoredSet μ σ} : 0 < zcard s ↔ ∃ r, r ∈ s.rows :=
  List.length_pos_iff_exists_mem

section Add

variable [DecidableEq μ]

/-- `ZADD` of one member; an old score is replaced. -/
def zadd (s : ScoredSet μ σ) (m : μ) (x : σ) : ScoredSet μ σ where
  rows := (m, x) :: s.rows.filter fun r => r.1 ≠ m
  nodup := by
    refine List.nodup_cons.2 ⟨fun h => ?_, s.nodup.sublist (List.filter_sublist.map Prod.fst)⟩
    obtain ⟨r, hr, rfl⟩ := List.mem_map.1 h
    simpa using (List.mem_filter.1 hr).2

theorem mem_zadd {s : ScoredSet μ σ} {m : μ} {x : σ} {r : μ × σ} :
    r ∈ (zadd s m x).rows ↔ r = (m, x) ∨ (r ∈ s.rows ∧ r.1 ≠ m) := by
  simp [zadd]

end Add

section Remove

variable [LinearOrder σ]

/-- `ZREMRANGEBYSCORE` from `-inf` to `max`. -/
def zremrangebyscore (s : ScoredSet μ σ) (max : σ) : ScoredSet μ σ where
  rows := s.rows.filter fun r => max < r.2
  nodup := s.nodup.sublist (List.filter_sublist.map Prod.fst)

theorem mem_zremrangebyscore {s : ScoredSet μ σ} {max : σ} {r : μ × σ} :
    r ∈ (zremrangebyscore s max).rows ↔ r ∈ s.rows ∧ max < r.2 := by
  simp [zremrangebyscore]

/-- Nobody is removed when no score is in the range. -/
theorem zremrangebyscore_of_lt {s : ScoredSet μ σ} {max : σ} (h : ∀ r ∈ s.rows, max < r.2) :
    zremrangebyscore s max = s := by
  have hrows : s.rows.filter (fun r => max < r.2) = s.rows :=
    List.filter_eq_self.2 fun r hr => by simpa using h r hr
  simp only [zremrangebyscore, hrows]

/-- Nobody is left when all scores are in the range. -/
theorem zcard_zremrangebyscore_of_le {s : ScoredSet μ σ} {max : σ}
    (h : ∀ r ∈ s.rows, r.2 ≤ max) : zcard (zremrangebyscore s max) = 0 := by
  by_contra hne
  obtain ⟨r, hr⟩ := zcard_pos.1 (Nat.pos_of_ne_zero hne)
  obtain ⟨hr, hlt⟩ := mem_zremrangebyscore.1 hr
  exact absurd hlt (not_lt.2 (h r hr))

end Remove

end ScoredSet
