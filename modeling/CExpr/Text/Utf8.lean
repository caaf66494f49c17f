/-!
# Byte offsets in text

Locations count bytes of the UTF-8 form, columns count characters. This module holds the byte length
of a list of characters and the way back from a byte offset to a number of characters.
-/

namespace CExpr.Text

/-- The number of bytes that the UTF-8 form of the characters takes. -/
def byteLength : List Char → Nat
  | [] => 0
  | c :: text => c.utf8Size + byteLength text

@[simp] theorem byteLength_nil : byteLength [] = 0 := rfl

@[simp] theorem byteLength_cons (c : Char) (text : List Char) :
    byteLength (c :: text) = c.utf8Size + byteLength text := rfl

@[simp] theorem byteLength_append (first second : List Char) :
    byteLength (first ++ second) = byteLength first + byteLength second := by
  induction first with
  | nil => simp
  | cons c first ih => simp [ih, Nat.add_assoc]

theorem byteLength_eq_utf8ByteSize (text : List Char) :
    byteLength text = (String.ofList text).utf8ByteSize := by
  induction text with
  | nil => simp
  | cons c text ih =>
    rw [byteLength_cons, ih, ← List.singleton_append, String.ofList_append,
      String.utf8ByteSize_append]
    simp

/-- The characters of a string take as many bytes as the string. -/
@[simp] theorem byteLength_toList (text : String) : byteLength text.toList = text.utf8ByteSize := by
  rw [byteLength_eq_utf8ByteSize, String.ofList_toList]

/-- How many characters fill the first `offset` bytes of the text. There is no answer when the
offset falls inside a character or past the end. -/
def charactersBefore? : List Char → Nat → Option Nat
  | _, 0 => some 0
  | [], _ + 1 => none
  | c :: text, offset + 1 =>
    if c.utf8Size ≤ offset + 1 then
      (charactersBefore? text (offset + 1 - c.utf8Size)).map (· + 1)
    else none

/-- The offset at the end of a first part lies after all characters of that part. -/
theorem charactersBefore?_append (first second : List Char) :
    charactersBefore? (first ++ second) (byteLength first) = some first.length := by
  induction first with
  | nil => cases second <;> rfl
  | cons c first ih =>
    obtain ⟨n, hn⟩ : ∃ n, c.utf8Size + byteLength first = n + 1 :=
      ⟨c.utf8Size + byteLength first - 1, by have := c.utf8Size_pos; omega⟩
    have hfits : c.utf8Size ≤ n + 1 := by omega
    have hrest : n + 1 - c.utf8Size = byteLength first := by omega
    simp [hn, charactersBefore?, hfits, hrest, ih]

end CExpr.Text
