import CExpr.Token.Basic

/-!
# Pieces of a source

A source is cut from left to right into pieces: white space, comments, texts of tokens, and
malformed spans. The cut loses nothing, so the pieces joined in order are the source again
(`pieces_text`). Signs are cut by longest match, names and numbers run as far as their characters
allow.
-/

namespace CExpr.Scan

/-- The mark on both ends of a string literal. -/
def quote : Char := '\x22'

/-- White space between tokens. -/
def isSpacing (c : Char) : Bool := c == ' ' || c == '\t' || c == '\r' || c == '\n'

def isHexDigit (c : Char) : Bool :=
  c.isDigit || ('a' ≤ c && c ≤ 'f') || ('A' ≤ c && c ≤ 'F')

/-- The first character of an identifier or reserved word. -/
def isWordStart (c : Char) : Bool := c.isAlpha || c == '_'

/-- A later character of an identifier or reserved word. -/
def isWordPart (c : Char) : Bool := c.isAlphanum || c == '_'

/-- What is wrong with a malformed span. -/
inductive Fault
  | invalidCharacter (c : Char)
  | unterminatedString
  | missingHexDigits
  deriving DecidableEq, Repr

def Fault.message : Fault → String
  | invalidCharacter c => "Invalid character in input: '" ++ String.ofList [c] ++ "'"
  | unterminatedString => "Unterminated string literal"
  | missingHexDigits => "Missing digits in hexadecimal constant"

inductive Piece
  | blank (c : Char)
  | comment (text : List Char)
  | lexeme (kind : Kind) (text : List Char)
  | malformed (fault : Fault) (text : List Char)
  deriving DecidableEq, Repr

/-- The characters of the source that the piece covers. -/
def Piece.text : Piece → List Char
  | blank c => [c]
  | comment text | lexeme _ text | malformed _ text => text

/-! ## Signs -/

/-- The compound signs of one length with their texts. -/
def compoundsOfLength (length : Nat) : List (List Char × Kind) :=
  (Compound.all.filter fun sign ↦ sign.spelling.length = length).map
    fun sign ↦ (sign.spelling.toList, .compound sign)

/-- Every text that is a sign, longer texts first. -/
def signs : List (List Char × Kind) :=
  compoundsOfLength 3 ++ compoundsOfLength 2 ++ Kind.punctuation.map fun c ↦ ([c], .punct c)

/-- The longest sign that the source begins with. -/
def sign? (source : List Char) : Option (List Char × Kind) :=
  signs.find? fun sign ↦ sign.1.isPrefixOf source

theorem sign?_isPrefix {source text : List Char} {kind : Kind}
    (h : sign? source = some (text, kind)) : text <+: source := by
  have := List.find?_some h
  simpa using this

theorem sign?_ne_nil {source text : List Char} {kind : Kind}
    (h : sign? source = some (text, kind)) : text ≠ [] := by
  have hmem : (text, kind) ∈ signs := List.mem_of_find?_eq_some h
  have hall : ∀ sign ∈ signs, sign.1 ≠ [] := by decide
  exact hall _ hmem

/-! ## Longer texts -/

/-- What stands between an opening quote and the next quote or the end of the line. -/
def stringBody (rest : List Char) : List Char := rest.takeWhile fun c ↦ c != quote && c != '\n'

/-- The piece that a quote opens. A string literal ends at the next quote of its line. -/
def stringPiece (rest : List Char) : Piece :=
  if (rest.drop (stringBody rest).length).head? = some quote then
    .lexeme .stringLiteral (quote :: (stringBody rest ++ [quote]))
  else .malformed .unterminatedString (quote :: stringBody rest)

/-- The piece of a zero and an x with the hexadecimal digits that follow. -/
def hexPiece (first mark : Char) (digits : List Char) : Piece :=
  if digits = [] then .malformed .missingHexDigits [first, mark]
  else .lexeme .constant (first :: mark :: digits)

/-- The piece that a digit opens. A zero and an x open a hexadecimal constant. -/
def numberPiece (first : Char) (rest : List Char) : Piece :=
  match rest with
  | mark :: more =>
    if first = '0' ∧ (mark = 'x' ∨ mark = 'X') then
      hexPiece first mark (more.takeWhile isHexDigit)
    else .lexeme .constant (first :: rest.takeWhile Char.isDigit)
  | [] => .lexeme .constant [first]

/-- The kind of an identifier or reserved word. -/
def wordKind (text : List Char) : Kind :=
  match Keyword.ofSpelling? text with
  | some word => .keyword word
  | none => .identifier

/-- The piece that a letter or underscore opens. -/
def wordPiece (first : Char) (rest : List Char) : Piece :=
  let text := first :: rest.takeWhile isWordPart
  .lexeme (wordKind text) text

/-- The piece that a source begins with. -/
def firstPiece (first : Char) (rest : List Char) : Piece :=
  if isSpacing first then .blank first
  else if first = '/' ∧ rest.head? = some '/' then
    .comment (first :: rest.takeWhile fun c ↦ c != '\n')
  else match sign? (first :: rest) with
    | some (text, kind) => .lexeme kind text
    | none =>
      if first = quote then stringPiece rest
      else if first.isDigit then numberPiece first rest
      else if isWordStart first then wordPiece first rest
      else .malformed (.invalidCharacter first) [first]

theorem stringPiece_text_isPrefix (rest : List Char) :
    (stringPiece rest).text <+: quote :: rest := by
  have hbody : stringBody rest <+: rest := List.takeWhile_prefix _
  unfold stringPiece
  split
  next h =>
    obtain ⟨more, hmore⟩ := List.head?_eq_some_iff.1 h
    refine List.cons_prefix_cons.2 ⟨rfl, more, ?_⟩
    rw [List.append_assoc, List.singleton_append, ← hmore]
    exact List.prefix_iff_eq_append.1 hbody
  next => exact List.cons_prefix_cons.2 ⟨rfl, hbody⟩

theorem hexPiece_text (first mark : Char) (digits : List Char) :
    (hexPiece first mark digits).text = first :: mark :: digits := by
  unfold hexPiece
  split
  next h => simp [h, Piece.text]
  next => rfl

theorem numberPiece_text_isPrefix (first : Char) (rest : List Char) :
    (numberPiece first rest).text <+: first :: rest := by
  unfold numberPiece
  split
  next mark more =>
    split
    · rw [hexPiece_text]
      exact List.cons_prefix_cons.2 ⟨rfl, List.cons_prefix_cons.2 ⟨rfl, List.takeWhile_prefix _⟩⟩
    · exact List.cons_prefix_cons.2 ⟨rfl, List.takeWhile_prefix _⟩
  next => exact List.prefix_refl _

/-- A piece is cut off the front of the source. -/
theorem firstPiece_text_isPrefix (first : Char) (rest : List Char) :
    (firstPiece first rest).text <+: first :: rest := by
  unfold firstPiece
  split
  · simp [Piece.text]
  split
  · exact List.cons_prefix_cons.2 ⟨rfl, List.takeWhile_prefix _⟩
  split
  next text kind h => exact sign?_isPrefix h
  split
  next h => subst h; exact stringPiece_text_isPrefix rest
  split
  · exact numberPiece_text_isPrefix first rest
  split
  · exact List.cons_prefix_cons.2 ⟨rfl, List.takeWhile_prefix _⟩
  · simp [Piece.text]

/-- Every piece covers at least one character. -/
theorem firstPiece_text_ne_nil (first : Char) (rest : List Char) :
    (firstPiece first rest).text ≠ [] := by
  unfold firstPiece
  split
  · simp [Piece.text]
  split
  · simp [Piece.text]
  split
  next text kind h => exact sign?_ne_nil h
  split
  · unfold stringPiece
    split <;> simp [Piece.text]
  split
  · unfold numberPiece
    split
    · split
      · simp [hexPiece_text]
      · simp [Piece.text]
    · simp [Piece.text]
  split <;> simp [wordPiece, Piece.text]

/-! ## The whole source -/

/-- What follows the first piece. -/
def afterFirst (first : Char) (rest : List Char) : List Char :=
  (first :: rest).drop (firstPiece first rest).text.length

theorem firstPiece_append_afterFirst (first : Char) (rest : List Char) :
    (firstPiece first rest).text ++ afterFirst first rest = first :: rest :=
  List.prefix_iff_eq_append.1 (firstPiece_text_isPrefix first rest)

theorem length_afterFirst_lt (first : Char) (rest : List Char) :
    (afterFirst first rest).length < (first :: rest).length := by
  have hpos := List.length_pos_iff.2 (firstPiece_text_ne_nil first rest)
  have hsum := congrArg List.length (firstPiece_append_afterFirst first rest)
  simp only [List.length_append] at hsum
  omega

/-- The pieces of a source from left to right. -/
def pieces : List Char → List Piece
  | [] => []
  | first :: rest => firstPiece first rest :: pieces (afterFirst first rest)
termination_by source => source.length
decreasing_by exact length_afterFirst_lt first rest

@[simp] theorem pieces_nil : pieces [] = [] := by rw [pieces]

theorem pieces_cons (first : Char) (rest : List Char) :
    pieces (first :: rest) = firstPiece first rest :: pieces (afterFirst first rest) := by
  rw [pieces]

/-- The pieces joined in order are the source. -/
theorem pieces_text (source : List Char) : (pieces source).flatMap Piece.text = source := by
  fun_induction pieces source with
  | case1 => rfl
  | case2 first rest ih =>
    rw [List.flatMap_cons, ih, firstPiece_append_afterFirst]

end CExpr.Scan
