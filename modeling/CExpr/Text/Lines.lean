/-!
# Lines of bytes

A line ends with a line feed, and a carriage return right before the line feed belongs to the end.
The last line needs no end. Only a line whose bytes are UTF-8 has a text, whatever the other lines
hold.
-/

namespace CExpr.Text

/-- The bytes of a line without its line feed. -/
structure RawLine where
  bytes : List UInt8
  /-- Whether a line feed followed. -/
  ended : Bool
  deriving DecidableEq, Repr

/-- Puts a byte in front of the lines that follow it. -/
def addByte (byte : UInt8) (lines : List RawLine) : List RawLine :=
  if byte = 0x0A then ⟨[], true⟩ :: lines
  else
    match lines with
    | [] => [⟨[byte], false⟩]
    | line :: lines => ⟨byte :: line.bytes, line.ended⟩ :: lines

/-- The lines of a sequence of bytes. -/
def rawLines (bytes : List UInt8) : List RawLine := bytes.foldr addByte []

namespace RawLine

/-- The bytes of the line without its end. -/
def content (line : RawLine) : List UInt8 :=
  if line.ended ∧ line.bytes.getLast? = some 0x0D then line.bytes.dropLast else line.bytes

/-- The text of the line, unless its bytes are not UTF-8. -/
def text? (line : RawLine) : Option String := String.fromUTF8? ⟨line.content.toArray⟩

/-- The line with its line feed. -/
def whole (line : RawLine) : List UInt8 := line.bytes ++ if line.ended then [0x0A] else []

end RawLine

/-- The texts of the lines in order. -/
def lines (bytes : ByteArray) : List (Option String) :=
  (rawLines bytes.data.toList).map RawLine.text?

theorem flatMap_whole_addByte (byte : UInt8) (lines : List RawLine) :
    (addByte byte lines).flatMap RawLine.whole = byte :: lines.flatMap RawLine.whole := by
  unfold addByte
  split
  next h => simp [RawLine.whole, h]
  next =>
    cases lines with
    | nil => simp [RawLine.whole]
    | cons line lines => simp [RawLine.whole]

/-- The lines with their line feeds are the bytes again. -/
theorem flatMap_whole_rawLines (bytes : List UInt8) :
    (rawLines bytes).flatMap RawLine.whole = bytes := by
  induction bytes with
  | nil => rfl
  | cons byte bytes ih =>
    rw [rawLines, List.foldr_cons, flatMap_whole_addByte]
    exact congrArg _ ih

end CExpr.Text
