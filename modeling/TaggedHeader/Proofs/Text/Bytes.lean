import TaggedHeader.Text.Utf8

/-!
# Newlines among the bytes of a text

A text is measured by its bytes but read by its characters. A newline is one byte in UTF-8, and no byte of another
character has its value, so the newlines among the bytes of a text are its newline characters.
-/

namespace TaggedHeader.Text

/-- The byte of a newline. -/
def newline : UInt8 := 10

/-- The bytes of a text are as many as it is long. -/
@[simp] theorem length_bytes (text : Text) : (bytes text).length = size text := by
  induction text with
  | nil => rfl
  | cons c rest ih => simp_all [bytes, size, String.length_utf8EncodeChar]

theorem bytes_append (left right : Text) : bytes (left ++ right) = bytes left ++ bytes right :=
  List.flatMap_append

theorem bytes_cons (c : Char) (rest : Text) : bytes (c :: rest) = String.utf8EncodeChar c ++ bytes rest := rfl

/-- A character is written as one byte, its code, or as bytes beyond ASCII only. -/
theorem toNat_of_mem_utf8EncodeChar {c : Char} {b : UInt8} (h : b ∈ String.utf8EncodeChar c) :
    b.toNat = c.val.toNat ∨ 128 ≤ b.toNat := by
  have hbyte : ∀ n : Nat, (UInt8.ofNat n).toNat = n % 256 := fun n => UInt8.toNat_ofNat
  simp only [String.utf8EncodeChar] at h
  split at h
  · left
    rw [List.mem_singleton.mp h, hbyte]
    omega
  · right
    split at h
    · simp only [List.mem_cons, List.not_mem_nil, or_false] at h
      rcases h with rfl | rfl <;> rw [hbyte] <;> omega
    · split at h
      · simp only [List.mem_cons, List.not_mem_nil, or_false] at h
        rcases h with rfl | rfl | rfl <;> rw [hbyte] <;> omega
      · simp only [List.mem_cons, List.not_mem_nil, or_false] at h
        rcases h with rfl | rfl | rfl | rfl <;> rw [hbyte] <;> omega

/-- No byte of a character that is not a newline has the value of a newline. -/
theorem newline_notMem_utf8EncodeChar {c : Char} (h : c ≠ '\n') : newline ∉ String.utf8EncodeChar c := by
  intro hmem
  rcases toNat_of_mem_utf8EncodeChar hmem with hcode | hlarge
  · exact h (Char.ext (UInt32.toNat.inj hcode.symm))
  · exact absurd hlarge (by decide)

/-- The newlines among the bytes of a text are its newline characters. -/
theorem newline_mem_bytes_iff {text : Text} : newline ∈ bytes text ↔ '\n' ∈ text := by
  induction text with
  | nil => simp [bytes]
  | cons c rest ih =>
    rw [bytes_cons, List.mem_append, ih, List.mem_cons]
    by_cases hnewline : c = '\n'
    · subst hnewline
      exact iff_of_true (.inl (by decide)) (.inl rfl)
    · exact or_congr (iff_of_false (newline_notMem_utf8EncodeChar hnewline) (Ne.symm hnewline)) Iff.rfl

end TaggedHeader.Text
