import Mathlib.Data.List.Basic
import Mathlib.Tactic.TypeStar

/-!
# Two words joined by a separator

`a ++ x :: b` is the word that joins `a` and `b` with the separator `x`.  The pair can be read
back only when `x` occurs nowhere else; this file says exactly when it cannot.

* `exists_other_split_iff`: the joined word is also the join of another pair of non-empty words
  iff `x` occurs in `a` after its first letter or in `b` before its last one;
* `lastPiece`: what is left of a word after its last separator (`split` and then `pop`), and
  `lastPiece_eq_self_iff`;
* `takeWhile_append_cons`, `splitOn_append_cons`: what precedes the first separator.

`join` and `split` are the same operations on strings.
-/

namespace Separator

section Lists

variable {α : Type*} {x : α}

/-- Two joins of the same word: the separators coincide, or one lies in the other's word. -/
theorem append_cons_eq_iff {a b a' b' : List α} :
    a' ++ x :: b' = a ++ x :: b ↔
      (a' = a ∧ b' = b) ∨ (∃ c, a = a' ++ x :: c ∧ b' = c ++ x :: b) ∨
        ∃ c, a' = a ++ x :: c ∧ b = c ++ x :: b' := by
  constructor
  · intro h
    rcases List.append_eq_append_iff.1 h with ⟨c, rfl, hc⟩ | ⟨c, rfl, hc⟩
    · cases c with
      | nil => exact Or.inl ⟨by simp, by simpa using hc⟩
      | cons y c =>
        obtain ⟨rfl, rfl⟩ := List.cons_eq_cons.1 hc
        exact Or.inr (Or.inl ⟨c, rfl, rfl⟩)
    · cases c with
      | nil => exact Or.inl ⟨by simp, by simpa using hc.symm⟩
      | cons y c =>
        obtain ⟨rfl, rfl⟩ := List.cons_eq_cons.1 hc
        exact Or.inr (Or.inr ⟨c, rfl, rfl⟩)
  · rintro (⟨rfl, rfl⟩ | ⟨c, rfl, rfl⟩ | ⟨c, rfl, rfl⟩) <;> simp

theorem mem_tail_iff {a : List α} : x ∈ a.tail ↔ ∃ p q, p ≠ [] ∧ a = p ++ x :: q := by
  constructor
  · intro h
    cases a with
    | nil => cases h
    | cons y a =>
      obtain ⟨p, q, hpq⟩ := List.append_of_mem h
      exact ⟨y :: p, q, by simp, by rw [List.tail_cons] at hpq; rw [hpq]; rfl⟩
  · rintro ⟨p, q, hp, rfl⟩
    rw [List.tail_append_of_ne_nil hp]
    simp

theorem mem_dropLast_iff {b : List α} : x ∈ b.dropLast ↔ ∃ p q, q ≠ [] ∧ b = p ++ x :: q := by
  constructor
  · intro h
    obtain ⟨p, q, hpq⟩ := List.append_of_mem h
    have hb : b ≠ [] := by rintro rfl; cases h
    exact ⟨p, q ++ [b.getLast hb], by simp, by
      rw [← List.cons_append, ← List.append_assoc, ← hpq, List.dropLast_append_getLast hb]⟩
  · rintro ⟨p, q, hq, rfl⟩
    rw [List.dropLast_append_of_ne_nil (List.cons_ne_nil x q), List.dropLast_cons_of_ne_nil hq]
    simp

/-- The joined word has another reading as two non-empty words iff the separator occurs in the
first word after its first letter or in the second before its last. -/
theorem exists_other_split_iff {a b : List α} (ha : a ≠ []) (hb : b ≠ []) :
    (∃ a' b', a' ≠ [] ∧ b' ≠ [] ∧ (a', b') ≠ (a, b) ∧ a' ++ x :: b' = a ++ x :: b) ↔
      x ∈ a.tail ∨ x ∈ b.dropLast := by
  constructor
  · rintro ⟨a', b', ha', hb', hne, h⟩
    rcases append_cons_eq_iff.1 h with ⟨rfl, rfl⟩ | ⟨c, hc, -⟩ | ⟨c, -, hc⟩
    · exact absurd rfl hne
    · exact Or.inl (mem_tail_iff.2 ⟨a', c, ha', hc⟩)
    · exact Or.inr (mem_dropLast_iff.2 ⟨c, b', hb', hc⟩)
  · rintro (h | h)
    · obtain ⟨p, q, hp, rfl⟩ := mem_tail_iff.1 h
      exact ⟨p, q ++ x :: b, hp, by simp, by simp, by simp⟩
    · obtain ⟨p, q, hq, rfl⟩ := mem_dropLast_iff.1 h
      exact ⟨a ++ x :: p, q, by simp, hq, by simp, by simp⟩

variable [DecidableEq α]

/-- What follows the last separator, the whole word when there is none. -/
def lastPiece (x : α) (l : List α) : List α := ((l.splitOn x).getLast?).getD []

theorem lastPiece_of_notMem {l : List α} (h : x ∉ l) : lastPiece x l = l := by
  have hsplit : l.splitOn x = [l] := by
    rw [List.splitOn_eq_splitOnP]
    refine List.splitOnP_eq_singleton fun y hy => beq_eq_false_iff_ne.2 ?_
    rintro rfl
    exact h hy
  simp [lastPiece, hsplit]

theorem lastPiece_append_cons (a b : List α) : lastPiece x (a ++ x :: b) = lastPiece x b := by
  have hsplit : (a ++ x :: b).splitOn x = a.splitOn x ++ b.splitOn x := by
    simp only [List.splitOn_eq_splitOnP]
    exact List.splitOnP_append_cons a b (by simp)
  have hne : b.splitOn x ≠ [] := by
    rw [List.splitOn_eq_splitOnP]
    exact List.splitOnP_ne_nil _ b
  rw [lastPiece, lastPiece, hsplit, List.getLast?_append_of_ne_nil _ hne]

theorem notMem_lastPiece (l : List α) : x ∉ lastPiece x l := by
  induction h : l.length using Nat.strongRecOn generalizing l with
  | _ n ih =>
    by_cases hx : x ∈ l
    · obtain ⟨p, q, rfl⟩ := List.append_of_mem hx
      rw [lastPiece_append_cons]
      exact ih q.length (by simp at h; omega) q rfl
    · rwa [lastPiece_of_notMem hx]

theorem lastPiece_eq_self_iff {l : List α} : lastPiece x l = l ↔ x ∉ l :=
  ⟨fun h => h ▸ notMem_lastPiece l, lastPiece_of_notMem⟩

theorem splitOn_of_notMem {l : List α} (h : x ∉ l) : l.splitOn x = [l] := by
  rw [List.splitOn_eq_splitOnP]
  refine List.splitOnP_eq_singleton fun y hy => beq_eq_false_iff_ne.2 ?_
  rintro rfl
  exact h hy

theorem splitOn_append_cons {a : List α} (h : x ∉ a) (b : List α) :
    (a ++ x :: b).splitOn x = a :: b.splitOn x := by
  have hsplit : (a ++ x :: b).splitOn x = a.splitOn x ++ b.splitOn x := by
    simp only [List.splitOn_eq_splitOnP]
    exact List.splitOnP_append_cons a b (by simp)
  rw [hsplit, splitOn_of_notMem h, List.singleton_append]

/-- What precedes the first separator. -/
theorem takeWhile_append_cons {a : List α} (h : x ∉ a) (b : List α) :
    (a ++ x :: b).takeWhile (· ≠ x) = a := by
  rw [List.takeWhile_append_of_pos fun y hy => by
    simpa using fun heq : y = x => h (heq ▸ hy)]
  simp

theorem exists_eq_takeWhile_append {l : List α} (h : x ∈ l) :
    ∃ b, l = l.takeWhile (· ≠ x) ++ x :: b := by
  obtain ⟨a, b, rfl, ha⟩ := List.eq_append_cons_of_mem h
  exact ⟨b, by rw [takeWhile_append_cons ha]⟩

end Lists

/-! ### Strings -/

/-- `s.split(x)` for a separator of one character. -/
def split (s : String) (x : Char) : List String := (s.toList.splitOn x).map String.ofList

/-- `a` and `b` joined by the one-character separator `x`. -/
def join (x : Char) (a b : String) : String := a ++ String.singleton x ++ b

theorem toList_join (x : Char) (a b : String) :
    (join x a b).toList = a.toList ++ x :: b.toList := by
  simp [join, String.toList_append]

theorem getLast?_split (s : String) (x : Char) :
    (split s x).getLast? = some (String.ofList (lastPiece x s.toList)) := by
  have hne : s.toList.splitOn x ≠ [] := by
    rw [List.splitOn_eq_splitOnP]
    exact List.splitOnP_ne_nil _ _
  rw [split, lastPiece, List.getLast?_map, List.getLast?_eq_some_getLast hne]
  rfl

theorem toList_ne_nil {s : String} (h : s ≠ "") : s.toList ≠ [] := by
  simpa using h

end Separator
