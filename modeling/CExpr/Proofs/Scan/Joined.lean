import CExpr.Proofs.Scan.Partition
import CExpr.Proofs.Scan.Spacing
import Mathlib.Algebra.GroupWithZero.Nat

/-!
# Tokens joined by spaces

The texts of the tokens of a source, written with one space between each two, are a source of their
own. No token but a string literal holds a space, so each text is read again as the token that it
was, whatever stood after it before. What is malformed is gone after this, and doing it once more
changes nothing.
-/

namespace CExpr

namespace Scan

/-! ## Joined tokens -/

/-- The token can be read somewhere. -/
def Stands (token : Token) : Prop :=
  ∃ after, (Piece.lexeme token.kind token.lexeme.toList).Fits after

theorem stands_of_mem_words {source : List Char} {token : Token}
    (h : token ∈ words (pieces source)) : Stands token := by
  obtain ⟨⟨before, piece⟩, hmem, htoken⟩ := List.mem_filterMap.1 h
  obtain ⟨after, -, hfits⟩ := (cut_pieces source).fits_of_mem_placed hmem
  cases piece with
  | lexeme kind text =>
    cases htoken
    refine ⟨after, ?_⟩
    rwa [String.toList_ofList]
  | blank | comment | malformed => cases htoken

/-- The pieces of tokens with a space between each two. -/
def spaced : List Token → List Piece
  | [] => []
  | [token] => [.lexeme token.kind token.lexeme.toList]
  | token :: next :: rest =>
    .lexeme token.kind token.lexeme.toList :: .blank ' ' :: spaced (next :: rest)

/-- The tokens on one line from a position on, each one byte after the end of the one before it. -/
def onOneLine (position : Nat) (tokens : List Token) : List Token :=
  tokens.mapIdx fun index token ↦
    ⟨token.kind,
      ⟨0, position + ((tokens.take index).map fun earlier ↦ earlier.lexeme.utf8ByteSize + 1).sum⟩,
      token.lexeme⟩

theorem onOneLine_cons (position : Nat) (token : Token) (tokens : List Token) :
    onOneLine position (token :: tokens) =
      ⟨token.kind, ⟨0, position⟩, token.lexeme⟩ ::
        onOneLine (position + token.lexeme.utf8ByteSize + 1) tokens := by
  simp [onOneLine, List.mapIdx_cons, Nat.add_assoc]

theorem map_kind_onOneLine (position : Nat) (tokens : List Token) :
    (onOneLine position tokens).map Token.kind = tokens.map Token.kind := by
  induction tokens generalizing position with
  | nil => rfl
  | cons token tokens ih => rw [onOneLine_cons, List.map_cons, ih, List.map_cons]

theorem map_lexeme_onOneLine (position : Nat) (tokens : List Token) :
    (onOneLine position tokens).map Token.lexeme = tokens.map Token.lexeme := by
  induction tokens generalizing position with
  | nil => rfl
  | cons token tokens ih => rw [onOneLine_cons, List.map_cons, ih, List.map_cons]

theorem toList_intercalate_lexeme (tokens : List Token) :
    (" ".intercalate (tokens.map Token.lexeme)).toList = (spaced tokens).flatMap Piece.text := by
  fun_induction spaced tokens with
  | case1 => rfl
  | case2 token => simp [Piece.text]
  | case3 token next rest ih =>
    have hjoin : " ".intercalate ((token :: next :: rest).map Token.lexeme) =
        token.lexeme ++ " " ++ " ".intercalate ((next :: rest).map Token.lexeme) :=
      String.intercalate_cons_cons
    rw [hjoin, String.toList_append, String.toList_append, ih]
    simp [Piece.text]

/-- Before a space or at the end, every token that can be read is read. -/
theorem cut_spaced {tokens : List Token} (h : ∀ token ∈ tokens, Stands token) :
    Cut ((spaced tokens).flatMap Piece.text) (spaced tokens) := by
  fun_induction spaced tokens with
  | case1 => exact .nil
  | case2 token =>
    obtain ⟨after, hfits⟩ := h token List.mem_cons_self
    exact .cons (fits_of_endsWord [] nofun hfits) .nil
  | case3 token next rest ih =>
    obtain ⟨after, hfits⟩ := h token List.mem_cons_self
    have hrest := ih fun other hother ↦ h other (List.mem_cons_of_mem token hother)
    have hblank : (Piece.blank ' ').Fits ((spaced (next :: rest)).flatMap Piece.text) :=
      List.mem_cons_self
    exact .cons (fits_of_endsWord [] (endsWord_cons (by decide) _) hfits) (.cons hblank hrest)

theorem reportsFrom_spaced (location : Location) (tokens : List Token) :
    reportsFrom location (spaced tokens) = [] := by
  fun_induction spaced tokens generalizing location with
  | case1 | case2 => rfl
  | case3 token next rest ih => exact ih _

/-- The line is the same after a token. -/
theorem advance_lexeme {token : Token} (h : Stands token) (position : Nat) :
    Location.advance ⟨0, position⟩ token.lexeme.toList =
      ⟨0, position + token.lexeme.utf8ByteSize⟩ := by
  obtain ⟨after, -, hreads⟩ := h
  have hline := List.count_eq_zero.2 (newline_notMem_of_reads hreads)
  simp [Location.advance, hline]

theorem tokensFrom_spaced {tokens : List Token} (h : ∀ token ∈ tokens, Stands token)
    (position : Nat) :
    tokensFrom ⟨0, position⟩ (spaced tokens) =
      onOneLine position tokens ++
        [⟨.endOfInput,
          ⟨0, position + Text.byteLength ((spaced tokens).flatMap Piece.text)⟩, ""⟩] := by
  fun_induction spaced tokens generalizing position with
  | case1 => rfl
  | case2 token =>
    have htoken := advance_lexeme (h token List.mem_cons_self) position
    rw [onOneLine_cons]
    simp [tokensFrom, Piece.token?, Piece.text, htoken, onOneLine]
  | case3 token next rest ih =>
    have htoken := advance_lexeme (h token List.mem_cons_self) position
    have hblank : Location.advance ⟨0, position + token.lexeme.utf8ByteSize⟩ [' '] =
        ⟨0, position + token.lexeme.utf8ByteSize + 1⟩ := rfl
    have hrest := ih (fun other hother ↦ h other (List.mem_cons_of_mem token hother))
      (position + token.lexeme.utf8ByteSize + 1)
    have hlength : Text.byteLength ((spaced (token :: next :: rest)).flatMap Piece.text) =
        token.lexeme.utf8ByteSize +
          (1 + Text.byteLength ((spaced (next :: rest)).flatMap Piece.text)) := by
      simp [spaced, Piece.text, show ' '.utf8Size = 1 from rfl]
    rw [onOneLine_cons, ← spaced, hlength, ← Nat.add_assoc, ← Nat.add_assoc]
    simp [spaced, tokensFrom, Piece.token?, Piece.text, htoken, hblank, hrest]

end Scan

open Scan

/-- The tokens of a source without the end of the input. -/
def wordsOf (source : String) : List Token :=
  (scan source).tokens.filter (·.kind ≠ .endOfInput)

/-- The texts of the tokens of a source with single spaces between them. -/
def normalise (source : String) : String :=
  " ".intercalate ((wordsOf source).map Token.lexeme)

/-- Without its end, what was put before the end is left. -/
theorem filter_append_end {tokens : List Token} (h : ∀ token ∈ tokens, token.kind ≠ .endOfInput)
    (location : Location) :
    (tokens ++ [(⟨.endOfInput, location, ""⟩ : Token)]).filter (·.kind ≠ .endOfInput) = tokens := by
  have hwords : tokens.filter (·.kind ≠ .endOfInput) = tokens :=
    List.filter_eq_self.2 fun token htoken ↦ by simpa using h token htoken
  rw [List.filter_append, hwords]
  simp

theorem kind_ne_endOfInput_of_mem_wordsOf {source : String} {token : Token}
    (h : token ∈ wordsOf source) : token.kind ≠ .endOfInput := by
  simpa using (List.mem_filter.1 h).2

theorem wordsOf_eq (source : String) : wordsOf source = words (pieces source.toList) := by
  rw [wordsOf, tokens_eq]
  exact filter_append_end (fun _ ↦ kind_ne_endOfInput_of_mem_words) _

theorem stands_of_mem_wordsOf (source : String) : ∀ token ∈ wordsOf source, Stands token := by
  intro token htoken
  rw [wordsOf_eq] at htoken
  exact stands_of_mem_words htoken

theorem pieces_normalise (source : String) :
    pieces (normalise source).toList = spaced (wordsOf source) := by
  rw [normalise, toList_intercalate_lexeme]
  exact (cut_spaced (stands_of_mem_wordsOf source)).pieces_eq

theorem tokens_normalise (source : String) :
    (scan (normalise source)).tokens =
      onOneLine 0 (wordsOf source) ++
        [⟨.endOfInput, ⟨0, (normalise source).utf8ByteSize⟩, ""⟩] := by
  rw [scan, pieces_normalise, Location.start, tokensFrom_spaced (stands_of_mem_wordsOf source)]
  rw [← pieces_normalise, pieces_text, Text.byteLength_toList, Nat.zero_add]

theorem wordsOf_normalise (source : String) :
    wordsOf (normalise source) = onOneLine 0 (wordsOf source) := by
  have hwords : ∀ token ∈ onOneLine 0 (wordsOf source), token.kind ≠ .endOfInput := by
    intro token htoken
    have hkind := List.mem_map_of_mem (f := Token.kind) htoken
    rw [map_kind_onOneLine] at hkind
    obtain ⟨word, hword, heq⟩ := List.mem_map.1 hkind
    rw [← heq]
    exact kind_ne_endOfInput_of_mem_wordsOf hword
  rw [wordsOf, tokens_normalise]
  exact filter_append_end hwords _

/-- The tokens of a source, joined by single spaces, are scanned without a report to the same kinds
and texts on one line, each placed after the ones before it and a space for each of those. So doing
it twice is doing it once. -/
theorem scan_normalise (source : String) :
    (scan (normalise source)).reports = [] ∧
      (scan (normalise source)).tokens =
        (wordsOf source).mapIdx (fun index token ↦
          ⟨token.kind,
            ⟨0, (((wordsOf source).take index).map fun earlier ↦
              earlier.lexeme.utf8ByteSize + 1).sum⟩,
            token.lexeme⟩) ++
          [⟨.endOfInput, ⟨0, (normalise source).utf8ByteSize⟩, ""⟩] ∧
      normalise (normalise source) = normalise source := by
  refine ⟨?_, ?_, ?_⟩
  · rw [scan, pieces_normalise]
    exact reportsFrom_spaced _ _
  · rw [tokens_normalise]
    simp [onOneLine]
  · rw [normalise, wordsOf_normalise, map_lexeme_onOneLine]
    rfl

example : normalise "p->q// r\n<<\t$ 0x \x22s t\x22 \x22u" = "p -> q << \x22s t\x22" := by
  decide +kernel

end CExpr
