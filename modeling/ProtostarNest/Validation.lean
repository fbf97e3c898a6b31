import ProtostarNest.Lib.Utf16

/-!
# Strings, `MinLength` and `MaxLength`

A string of JavaScript, for where it matters that a surrogate may stand alone, and the length of a
string as `class-validator` counts it, through `isLength` of validator.js.
-/

namespace ProtostarNest

/-- A string of JavaScript, by its 16-bit units. -/
abbrev JsString := List UInt16

namespace JsString

def ofString (s : String) : JsString := Utf16.encode s.toList

instance : Coe String JsString := ⟨ofString⟩

/-- `String.prototype.toWellFormed`: U+FFFD stands for each lone surrogate. This is also the string
that is encoded in UTF-8. -/
def toWellFormed (p : JsString) : String := String.ofList (Utf16.decode p)

/-- `String.prototype.isWellFormed`. -/
def IsWellFormed (p : JsString) : Prop := ofString p.toWellFormed = p

instance (p : JsString) : Decidable p.IsWellFormed := inferInstanceAs (Decidable (_ = _))

@[simp] theorem toWellFormed_ofString (s : String) : (ofString s).toWellFormed = s := by
  rw [toWellFormed, ofString, Utf16.decode_encode, String.ofList_toList]

/-- What its UTF-8 says of a string without lone surrogates and without U+FFFD is the string. -/
theorem replacement_notMem {p : JsString} :
    Utf16.replacement ∉ Utf16.decode p ↔ p.IsWellFormed ∧ 0xFFFD ∉ p := by
  rw [Utf16.replacement_notMem_decode, IsWellFormed, ofString, toWellFormed, String.toList_ofList]

end JsString

/-- Variation selectors after another character, which validator.js does not count. -/
def presentationSequences : List Char → Nat
  | a :: b :: l =>
      (if a ∉ ['\uFE0E', '\uFE0F'] ∧ b ∈ ['\uFE0E', '\uFE0F'] then 1 else 0) +
        presentationSequences (b :: l)
  | _ => 0

/-- What `isLength` compares with its bounds: a surrogate pair counts once, and so does a lone
surrogate. -/
def validatorLength (s : String) : Nat := s.length - presentationSequences s.toList

end ProtostarNest
