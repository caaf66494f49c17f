import CExpr.Token.Basic

/-!
# Inputs of a parse

A parse reads the tokens up to the first end of the input and nothing after it. A list without an
end gets one where its last token ends.
-/

namespace CExpr.Parse

/-- The tokens before the end of the input, and that end. -/
structure Input where
  words : List Token
  stop : Token
  words_kind : ∀ token ∈ words, token.kind ≠ .endOfInput
  stop_kind : stop.kind = .endOfInput

namespace Input

def isWord (token : Token) : Bool := token.kind != .endOfInput

/-- The end that is supplied to tokens without one. -/
def suppliedStop (tokens : List Token) : Token :=
  ⟨.endOfInput, (tokens.getLast?.map Token.finish).getD .start, ""⟩

def ofTokens (tokens : List Token) : Input where
  words := tokens.takeWhile isWord
  stop := (tokens.find? (!isWord ·)).getD (suppliedStop tokens)
  words_kind := by
    intro token h
    have hword := List.all_eq_true.1 (List.all_takeWhile (p := isWord) (l := tokens)) token h
    simpa [isWord] using hword
  stop_kind := by
    cases h : tokens.find? (!isWord ·) with
    | none => rfl
    | some token => simpa [isWord] using List.find?_some h

/-- The tokens that the input is made of. -/
def toList (input : Input) : List Token := input.words ++ [input.stop]

/-- Words and an end after them are kept as they are. -/
theorem ofTokens_words {words : List Token} {stop : Token} (after : List Token)
    (hwords : ∀ token ∈ words, token.kind ≠ .endOfInput) (hstop : stop.kind = .endOfInput) :
    (ofTokens (words ++ stop :: after)).toList = words ++ [stop] := by
  have hall : ∀ token ∈ words, isWord token = true := fun token h ↦ by simp [isWord, hwords token h]
  have hend : isWord stop = false := by simp [isWord, hstop]
  have htake : (words ++ stop :: after).takeWhile isWord = words := by
    rw [List.takeWhile_append_of_pos hall]
    simp [hend]
  have hfind : (words ++ stop :: after).find? (!isWord ·) = some stop := by
    have hnone : words.find? (!isWord ·) = none := by
      simpa using hall
    simp [List.find?_append, hnone, hend]
  simp [toList, ofTokens, htake, hfind]

end Input

end CExpr.Parse
