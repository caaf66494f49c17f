import CExpr.Token.Kind

/-!
# Colours

The colours of messages and token listings, and the escape sequences that set them on a terminal.
-/

namespace CExpr

structure Color where
  red : Nat
  green : Nat
  blue : Nat
  deriving DecidableEq, Repr

/-- The text in the colour, followed by a return to the terminal's own colour. -/
def Color.paint (color : Color) (text : String) : String :=
  "\x1b[38;2;" ++ toString color.red ++ ";" ++ toString color.green ++ ";" ++
    toString color.blue ++ "m" ++ text ++ "\x1b[0m"

structure Palette where
  plain : Color
  comment : Color
  error : Color
  warning : Color
  keyword : Color
  identifier : Color
  text : Color
  number : Color
  operator : Color
  punctuation : Color

namespace Palette

/-- Soft colours on a dark ground. -/
def standard : Palette where
  plain := ⟨205, 214, 244⟩
  comment := ⟨108, 112, 134⟩
  error := ⟨243, 139, 168⟩
  warning := ⟨249, 226, 175⟩
  keyword := ⟨137, 180, 250⟩
  identifier := ⟨205, 214, 244⟩
  text := ⟨250, 179, 135⟩
  number := ⟨250, 179, 135⟩
  operator := ⟨148, 226, 213⟩
  punctuation := ⟨108, 112, 134⟩

/-- The characters that enclose or separate and do not operate. -/
def separators : List Char := ['[', ']', '(', ')', '{', '}', ';', ',']

/-- The colour of a token of the kind. -/
def colorOf (palette : Palette) : Kind → Color
  | .identifier => palette.identifier
  | .constant => palette.number
  | .stringLiteral => palette.text
  | .endOfInput => palette.comment
  | .punct c => if c ∈ separators then palette.punctuation else palette.operator
  | .keyword _ => palette.keyword
  | .compound _ => palette.operator

end Palette

end CExpr
