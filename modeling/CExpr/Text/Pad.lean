/-!
# Columns of text

Numbers in a token listing stand in columns of a least width.
-/

namespace CExpr.Text

/-- A run of spaces. -/
def spaces (count : Nat) : String := String.ofList (List.replicate count ' ')

/-- The text moved to the right end of a column; a longer text keeps its own width. -/
def alignRight (width : Nat) (text : String) : String := spaces (width - text.length) ++ text

/-- The text at the left end of a column; a longer text keeps its own width. -/
def alignLeft (width : Nat) (text : String) : String := text ++ spaces (width - text.length)

@[simp] theorem toList_spaces (count : Nat) :
    (spaces count).toList = List.replicate count ' ' := by
  simp [spaces]

theorem spaces_append (first second : Nat) :
    spaces first ++ spaces second = spaces (first + second) := by
  rw [spaces, spaces, spaces, ← String.ofList_append, List.replicate_append_replicate]

end CExpr.Text
