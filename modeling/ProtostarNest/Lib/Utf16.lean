import Mathlib.Data.List.Basic
import Mathlib.Logic.Basic

/-!
# UTF-16

Strings of 16-bit units in which a surrogate may stand alone, as in JavaScript.  The conversion to
UTF-8 puts U+FFFD in the place of each lone surrogate.

* `decode`: the characters that the conversion goes through; `encode`: the units of characters;
* `decode_encode`: characters are read back;
* `encode_decode`: units are read back as far as no U+FFFD is read;
* `replacement_notMem_decode`: that is so for well-formed units without U+FFFD;
* `exists_decode_eq`: where one is read, other units read the same.
-/

namespace Utf16

/-- The first unit of a surrogate pair. -/
def IsHigh (u : UInt16) : Prop := 0xD800 ≤ u.toNat ∧ u.toNat < 0xDC00

/-- The second unit of a surrogate pair. -/
def IsLow (u : UInt16) : Prop := 0xDC00 ≤ u.toNat ∧ u.toNat < 0xE000

instance (u : UInt16) : Decidable (IsHigh u) := inferInstanceAs (Decidable (_ ∧ _))

instance (u : UInt16) : Decidable (IsLow u) := inferInstanceAs (Decidable (_ ∧ _))

def replacement : Char := '\uFFFD'

/-- A unit that is not part of a pair. -/
def single (u : UInt16) : Char := if IsHigh u ∨ IsLow u then replacement else Char.ofNat u.toNat

def pair (u v : UInt16) : Char :=
  Char.ofNat (0x10000 + (u.toNat - 0xD800) * 0x400 + (v.toNat - 0xDC00))

def decode : List UInt16 → List Char
  | [] => []
  | [u] => [single u]
  | u :: v :: l =>
      if IsHigh u ∧ IsLow v then pair u v :: decode l else single u :: decode (v :: l)

def encodeChar (c : Char) : List UInt16 :=
  if c.toNat < 0x10000 then [UInt16.ofNat c.toNat]
  else
    [UInt16.ofNat (0xD800 + (c.toNat - 0x10000) / 0x400),
      UInt16.ofNat (0xDC00 + (c.toNat - 0x10000) % 0x400)]

def encode (l : List Char) : List UInt16 := l.flatMap encodeChar

/-! ### Single units and pairs -/

section Units

variable {u v : UInt16} {l : List UInt16}

theorem toNat_ofNat_char {n : ℕ} (h : n.isValidChar) : (Char.ofNat n).toNat = n := by
  rw [Char.ofNat, dif_pos h]
  rfl

theorem single_eq_replacement (h : IsHigh u ∨ IsLow u) : single u = replacement := if_pos h

theorem toNat_single (h : ¬ (IsHigh u ∨ IsLow u)) : (single u).toNat = u.toNat := by
  have hu := u.toNat_lt
  rw [single, if_neg h]
  unfold IsHigh IsLow at h
  exact toNat_ofNat_char (by show _ ∨ _; omega)

theorem toNat_pair (hu : IsHigh u) (hv : IsLow v) :
    (pair u v).toNat = 0x10000 + (u.toNat - 0xD800) * 0x400 + (v.toNat - 0xDC00) := by
  obtain ⟨hu, hu'⟩ := hu
  obtain ⟨hv, hv'⟩ := hv
  exact toNat_ofNat_char (by show _ ∨ _; omega)

theorem pair_ne_replacement (hu : IsHigh u) (hv : IsLow v) : pair u v ≠ replacement := by
  intro h
  have hpair := toNat_pair hu hv
  rw [h] at hpair
  have hval : replacement.toNat = 0xFFFD := rfl
  omega

theorem encodeChar_single (h : ¬ (IsHigh u ∨ IsLow u)) : encodeChar (single u) = [u] := by
  have hu := u.toNat_lt
  rw [encodeChar, toNat_single h, if_pos (by omega)]
  exact congrArg (fun u => [u]) (UInt16.ofNat_toNat)

theorem encodeChar_pair (hu : IsHigh u) (hv : IsLow v) : encodeChar (pair u v) = [u, v] := by
  rw [encodeChar, toNat_pair hu hv]
  obtain ⟨hu, hu'⟩ := hu
  obtain ⟨hv, hv'⟩ := hv
  have hhigh : 0xD800 + (0x10000 + (u.toNat - 0xD800) * 0x400 + (v.toNat - 0xDC00) - 0x10000) /
      0x400 = u.toNat := by omega
  have hlow : 0xDC00 + (0x10000 + (u.toNat - 0xD800) * 0x400 + (v.toNat - 0xDC00) - 0x10000) %
      0x400 = v.toNat := by omega
  rw [if_neg (by omega), hhigh, hlow, UInt16.ofNat_toNat, UInt16.ofNat_toNat]

/-! ### Reading one character -/

theorem decode_pair (hu : IsHigh u) (hv : IsLow v) (l : List UInt16) :
    decode (u :: v :: l) = pair u v :: decode l := if_pos ⟨hu, hv⟩

/-- A unit that does not begin a pair is read by itself. -/
theorem decode_cons (hu : ¬ IsHigh u) (l : List UInt16) :
    decode (u :: l) = single u :: decode l := by
  cases l with
  | nil => rfl
  | cons v l => exact if_neg fun h => hu h.1

/-- A unit that does not end a pair is read by itself. -/
theorem decode_concat (hu : ¬ IsLow u) (l : List UInt16) :
    decode (l ++ [u]) = decode l ++ [single u] := by
  induction l using decode.induct with
  | case1 => rfl
  | case2 v => exact if_neg fun h => hu h.2
  | case3 v w l h ih =>
    rw [List.cons_append, List.cons_append, decode_pair h.1 h.2, decode_pair h.1 h.2, ih]
    rfl
  | case4 v w l h ih =>
    have hsplit : ∀ l, decode (v :: w :: l) = single v :: decode (w :: l) := fun l => if_neg h
    rw [List.cons_append, List.cons_append, hsplit, hsplit, ← List.cons_append, ih]
    rfl

end Units

/-! ### Round trips -/

/-- A character outside of the basic plane is a pair. -/
theorem exists_pair {c : Char} (h : ¬ c.toNat < 0x10000) :
    ∃ u v, encodeChar c = [u, v] ∧ IsHigh u ∧ IsLow v ∧ pair u v = c := by
  have hvalid : c.toNat.isValidChar := c.valid
  have hrange : c.toNat < 0xD800 ∨ 0xDFFF < c.toNat ∧ c.toNat < 0x110000 := hvalid
  have hhigh : (UInt16.ofNat (0xD800 + (c.toNat - 0x10000) / 0x400)).toNat = _ :=
    UInt16.toNat_ofNat_of_lt' (by show _ < 0x10000; omega)
  have hlow : (UInt16.ofNat (0xDC00 + (c.toNat - 0x10000) % 0x400)).toNat = _ :=
    UInt16.toNat_ofNat_of_lt' (by show _ < 0x10000; omega)
  refine ⟨_, _, if_neg h, ⟨by omega, by omega⟩, ⟨by omega, by omega⟩, Char.toNat_inj.1 ?_⟩
  rw [toNat_pair ⟨by omega, by omega⟩ ⟨by omega, by omega⟩, hhigh, hlow]
  omega

theorem decode_encodeChar (c : Char) (l : List UInt16) :
    decode (encodeChar c ++ l) = c :: decode l := by
  by_cases hsmall : c.toNat < 0x10000
  · have hvalid : c.toNat.isValidChar := c.valid
    have hrange : c.toNat < 0xD800 ∨ 0xDFFF < c.toNat ∧ c.toNat < 0x110000 := hvalid
    have hunit : (UInt16.ofNat c.toNat).toNat = _ := UInt16.toNat_ofNat_of_lt' hsmall
    have hlone : ¬ (IsHigh (UInt16.ofNat c.toNat) ∨ IsLow (UInt16.ofNat c.toNat)) := by
      unfold IsHigh IsLow
      omega
    rw [encodeChar, if_pos hsmall, List.singleton_append, decode_cons fun h => hlone (Or.inl h)]
    exact congrArg (· :: _) (Char.toNat_inj.1 ((toNat_single hlone).trans hunit))
  · obtain ⟨u, v, hunits, hu, hv, hpair⟩ := exists_pair hsmall
    rw [hunits, ← hpair]
    exact decode_pair hu hv l

/-- Characters are read back from their units. -/
@[simp] theorem decode_encode (l : List Char) : decode (encode l) = l := by
  induction l with
  | nil => rfl
  | cons c l ih => rw [encode, List.flatMap_cons, decode_encodeChar, ← encode, ih]

/-- Units are read back from their characters, if no lone surrogate was replaced. -/
theorem encode_decode {l : List UInt16} (h : replacement ∉ decode l) : encode (decode l) = l := by
  have hlone : ∀ u, replacement ≠ single u → encodeChar (single u) = [u] := fun u hu =>
    encodeChar_single fun hsur => hu (single_eq_replacement hsur).symm
  induction l using decode.induct with
  | case1 => rfl
  | case2 u => exact (List.append_nil _).trans (hlone u (List.ne_and_not_mem_of_not_mem_cons h).1)
  | case3 u v l huv ih =>
    rw [decode_pair huv.1 huv.2] at h ⊢
    rw [encode, List.flatMap_cons, encodeChar_pair huv.1 huv.2, ← encode,
      ih (List.ne_and_not_mem_of_not_mem_cons h).2]
    rfl
  | case4 u v l huv ih =>
    have hsplit : decode (u :: v :: l) = single u :: decode (v :: l) := if_neg huv
    rw [hsplit] at h ⊢
    obtain ⟨hu, hrest⟩ := List.ne_and_not_mem_of_not_mem_cons h
    rw [encode, List.flatMap_cons, hlone u hu, ← encode, ih hrest]
    rfl

/-- The unit U+FFFD is read as what it is. -/
theorem replacement_mem_decode {l : List UInt16} (h : 0xFFFD ∈ l) : replacement ∈ decode l := by
  induction l using decode.induct with
  | case1 => cases h
  | case2 u =>
    obtain rfl := List.mem_singleton.1 h
    exact List.mem_singleton.2 rfl
  | case3 u v l huv ih =>
    rw [decode_pair huv.1 huv.2]
    rcases List.mem_cons.1 h with rfl | h
    · exact absurd huv.1 (by decide)
    rcases List.mem_cons.1 h with rfl | h
    · exact absurd huv.2 (by decide)
    · exact List.mem_cons_of_mem _ (ih h)
  | case4 u v l huv ih =>
    have hsplit : decode (u :: v :: l) = single u :: decode (v :: l) := if_neg huv
    rw [hsplit]
    rcases List.mem_cons.1 h with rfl | h
    · exact List.mem_cons_self
    · exact List.mem_cons_of_mem _ (ih h)

/-- No U+FFFD is read where none stands, unless for a lone surrogate. -/
theorem replacement_notMem_decode {l : List UInt16} :
    replacement ∉ decode l ↔ encode (decode l) = l ∧ 0xFFFD ∉ l := by
  constructor
  · exact fun h => ⟨encode_decode h, fun hmem => h (replacement_mem_decode hmem)⟩
  · rintro ⟨heq, hno⟩ hmem
    rw [← heq] at hno
    exact hno (List.mem_flatMap.2 ⟨replacement, hmem, by decide⟩)

/-- Units that are read without U+FFFD are the only ones that are read so. -/
theorem decode_inj {l m : List UInt16} (hl : replacement ∉ decode l) (h : decode m = decode l) :
    m = l := by
  rw [← encode_decode hl, ← h, encode_decode (h ▸ hl)]

/-- **Where U+FFFD is read, other units are read in the same way**: it may stand for itself or for a
lone surrogate. -/
theorem exists_decode_eq {l : List UInt16} (h : replacement ∈ decode l) :
    ∃ m, m ≠ l ∧ decode m = decode l := by
  -- the other unit does not begin a pair, so what follows is read as before
  have hother : ∀ u, single u = replacement → ∃ u', u' ≠ u ∧ ∀ l,
      decode (u' :: l) = replacement :: decode l := by
    intro u hu
    by_cases hself : u = 0xFFFD
    · refine ⟨0xDC00, by rw [hself]; decide, fun l => ?_⟩
      rw [decode_cons (by decide)]
      rfl
    · refine ⟨0xFFFD, Ne.symm hself, fun l => ?_⟩
      rw [decode_cons (by decide)]
      rfl
  induction l using decode.induct with
  | case1 => cases h
  | case2 u =>
    have hu : single u = replacement := (List.mem_singleton.1 h).symm
    obtain ⟨u', hne, hdecode⟩ := hother u hu
    refine ⟨[u'], fun heq => hne (List.cons.inj heq).1, ?_⟩
    rw [hdecode, ← hu]
    rfl
  | case3 u v l huv ih =>
    rw [decode_pair huv.1 huv.2] at h ⊢
    have hrest := (List.mem_cons.1 h).resolve_left (pair_ne_replacement huv.1 huv.2).symm
    obtain ⟨m, hne, hdecode⟩ := ih hrest
    refine ⟨u :: v :: m, fun heq => hne (List.cons.inj (List.cons.inj heq).2).2, ?_⟩
    rw [decode_pair huv.1 huv.2, hdecode]
  | case4 u v l huv ih =>
    have hsplit : decode (u :: v :: l) = single u :: decode (v :: l) := if_neg huv
    rw [hsplit] at h ⊢
    by_cases hu : single u = replacement
    · obtain ⟨u', hne, hdecode⟩ := hother u hu
      exact ⟨u' :: v :: l, fun heq => hne (List.cons.inj heq).1, by rw [hdecode, hu]⟩
    · obtain ⟨m, hne, hdecode⟩ := ih ((List.mem_cons.1 h).resolve_left (Ne.symm hu))
      have hhigh : ¬ IsHigh u := fun hhigh => hu (single_eq_replacement (Or.inl hhigh))
      exact ⟨u :: m, fun heq => hne (List.cons.inj heq).2, by rw [decode_cons hhigh, hdecode]⟩

example : decode [0x70, 0xD83D, 0xDE00, 0xDE00] = ['p', '😀', '\uFFFD'] := by decide

end Utf16
