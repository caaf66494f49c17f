import CExpr.Proofs.Scan.Cut
import CExpr.Scan.Basic

/-!
# What a scan makes of a cut

Every piece of a source is placed by the text before it. The tokens of a scan are the lexemes in
their places and the end of the input after them, and its reports are the malformed spans in theirs,
so a scan passes over nothing but white space and comments. Each token is the longest one that can
be read where it stands.
-/

namespace CExpr

namespace Scan

/-! ## Places -/

/-- The location after a text that begins a source. -/
def locationAfter (before : List Char) : Location :=
  ⟨before.count '\n', Text.byteLength before⟩

theorem locationAfter_append (before text : List Char) :
    locationAfter (before ++ text) = (locationAfter before).advance text := by
  simp [locationAfter, Location.advance]

/-- The pieces, each with the text before it. -/
def placed (before : List Char) : List Piece → List (List Char × Piece)
  | [] => []
  | piece :: rest => (before, piece) :: placed (before ++ piece.text) rest

theorem tokensFrom_eq (before : List Char) (pieces : List Piece) :
    tokensFrom (locationAfter before) pieces =
      (placed before pieces).filterMap (fun place ↦ place.2.token? (locationAfter place.1)) ++
        [⟨.endOfInput, locationAfter (before ++ pieces.flatMap Piece.text), ""⟩] := by
  induction pieces generalizing before with
  | nil => simp [tokensFrom, placed]
  | cons piece rest ih =>
    rw [tokensFrom, ← locationAfter_append, ih, placed, List.filterMap_cons]
    cases piece.token? (locationAfter before) <;> simp

theorem reportsFrom_eq (before : List Char) (pieces : List Piece) :
    reportsFrom (locationAfter before) pieces =
      (placed before pieces).filterMap fun place ↦ place.2.report? (locationAfter place.1) := by
  induction pieces generalizing before with
  | nil => rfl
  | cons piece rest ih =>
    rw [reportsFrom, ← locationAfter_append, ih, placed, List.filterMap_cons]
    cases piece.report? (locationAfter before) <;> simp

/-- A placed piece of a cut stands in the source after its place and fits what comes next. -/
theorem Cut.fits_of_mem_placed {source : List Char} {cut : List Piece} (h : Cut source cut)
    {start before : List Char} {piece : Piece} (hmem : (before, piece) ∈ placed start cut) :
    ∃ after, start ++ source = before ++ (piece.text ++ after) ∧ piece.Fits after := by
  induction h generalizing start with
  | nil => simp [placed] at hmem
  | @cons first after cut hfits _ ih =>
    rcases List.mem_cons.1 hmem with heq | hrest
    · obtain ⟨rfl, rfl⟩ := Prod.mk.inj heq
      exact ⟨after, rfl, hfits⟩
    · obtain ⟨last, hsource, hlast⟩ := ih hrest
      refine ⟨last, ?_, hlast⟩
      rw [← hsource, List.append_assoc]

/-- The tokens of a source before its end. -/
def words (cut : List Piece) : List Token :=
  (placed [] cut).filterMap fun place ↦ place.2.token? (locationAfter place.1)

theorem tokens_eq (source : String) :
    (scan source).tokens =
      words (pieces source.toList) ++
        [⟨.endOfInput, ⟨source.toList.count '\n', source.utf8ByteSize⟩, ""⟩] := by
  have h := tokensFrom_eq [] (pieces source.toList)
  rw [pieces_text, List.nil_append] at h
  rw [← Text.byteLength_toList]
  exact h

theorem reports_eq (source : String) :
    (scan source).reports = (placed [] (pieces source.toList)).filterMap
      fun place ↦ place.2.report? (locationAfter place.1) :=
  reportsFrom_eq [] _

/-- Each of these tokens reads its text where it stands, and no comment begins there. -/
theorem reads_of_mem_words {source : List Char} {token : Token}
    (h : token ∈ words (pieces source)) :
    ∃ before rest, source = before ++ rest ∧ token.location = locationAfter before ∧
      ¬['/', '/'] <+: rest ∧ Reads token.kind rest token.lexeme.toList := by
  obtain ⟨⟨before, piece⟩, hmem, htoken⟩ := List.mem_filterMap.1 h
  obtain ⟨after, hsource, hfits⟩ := (cut_pieces source).fits_of_mem_placed hmem
  cases piece with
  | lexeme kind text =>
    cases htoken
    obtain ⟨hcomment, hreads⟩ := hfits
    refine ⟨before, text ++ after, hsource, rfl, hcomment, ?_⟩
    rwa [String.toList_ofList]
  | blank | comment | malformed => cases htoken

theorem kind_ne_endOfInput_of_mem_words {source : List Char} {token : Token}
    (h : token ∈ words (pieces source)) : token.kind ≠ .endOfInput := by
  obtain ⟨_, _, -, -, -, hreads⟩ := reads_of_mem_words h
  intro hkind
  rw [hkind] at hreads
  exact hreads

end Scan

open Scan

/-- The token begins in the source behind `before`. Its text comes next, and only the end of the
input, which has none, comes where nothing is left. -/
structure Token.BeginsIn (source : String) (token : Token) (before rest : List Char) : Prop where
  source_eq : source.toList = before ++ rest
  location_eq : token.location = Scan.locationAfter before
  isPrefix : token.lexeme.toList <+: rest
  eq_nil_of_end : token.kind = .endOfInput → rest = []
  ne_nil_of_word : token.kind ≠ .endOfInput → token.lexeme.toList ≠ []

theorem exists_beginsIn_of_mem_scan {source : String} {token : Token}
    (h : token ∈ (scan source).tokens) : ∃ before rest, token.BeginsIn source before rest := by
  rw [tokens_eq] at h
  rcases List.mem_append.1 h with hword | hend
  · have hkind := kind_ne_endOfInput_of_mem_words hword
    obtain ⟨⟨before, piece⟩, hmem, htoken⟩ := List.mem_filterMap.1 hword
    obtain ⟨after, hsource, hfits⟩ := (cut_pieces source.toList).fits_of_mem_placed hmem
    cases piece with
    | lexeme kind text =>
      cases htoken
      exact ⟨before, text ++ after, hsource, rfl, by simp, fun hend ↦ absurd hend hkind,
        fun _ ↦ by simpa using ne_nil_of_reads hfits.2⟩
    | blank | comment | malformed => cases htoken
  · obtain rfl := List.mem_singleton.1 hend
    exact ⟨source.toList, [], by simp, by simp [locationAfter], by simp, fun _ ↦ rfl,
      fun hkind ↦ absurd rfl hkind⟩

/-- The source is made up of lexemes, white space, comments and malformed spans in one way only. The
lexemes in their places are the tokens, before the one end of the input, and the malformed spans are
the reports. -/
theorem scan_partition (source : String) :
    ∃ cut, (∀ other, Cut source.toList other ↔ other = cut) ∧
      cut.flatMap Piece.text = source.toList ∧
      (scan source).tokens =
        (placed [] cut).filterMap (fun place ↦ place.2.token? (locationAfter place.1)) ++
          [⟨.endOfInput, ⟨source.toList.count '\n', source.utf8ByteSize⟩, ""⟩] ∧
      (∀ token ∈ (scan source).tokens.dropLast, token.kind ≠ .endOfInput) ∧
      (scan source).reports =
        (placed [] cut).filterMap fun place ↦ place.2.report? (locationAfter place.1) := by
  refine ⟨pieces source.toList, fun other ↦ ?_, pieces_text _, tokens_eq source, ?_,
    reportsFrom_eq [] _⟩
  · rw [← pieces_eq_iff, eq_comm]
  · rw [tokens_eq, List.dropLast_concat]
    intro token htoken
    exact kind_ne_endOfInput_of_mem_words htoken

/-- Every token but the end of the input reads the longest text of its kind from the rest of the
source at its position. -/
theorem token_reads_of_mem_scan {source : String} {token : Token}
    (h : token ∈ (scan source).tokens) (hkind : token.kind ≠ .endOfInput) :
    ∃ before rest, source.toList = before ++ rest ∧
      token.location.position = Text.byteLength before ∧ ¬['/', '/'] <+: rest ∧
      Reads token.kind rest token.lexeme.toList := by
  rw [tokens_eq] at h
  rcases List.mem_append.1 h with hword | hend
  · obtain ⟨before, rest, hsource, hlocation, hreads⟩ := reads_of_mem_words hword
    exact ⟨before, rest, hsource, congrArg Location.position hlocation, hreads⟩
  · obtain rfl := List.mem_singleton.1 hend
    exact absurd rfl hkind

theorem token_reads_of_mem_scan_shift :
    ⟨.compound .shiftLeftAssign, ⟨0, 1⟩, "<<="⟩ ∈ (scan "a<<=0x1F").tokens ∧
      ∃ before rest, "a<<=0x1F".toList = before ++ rest ∧ 1 = Text.byteLength before ∧
        ¬['/', '/'] <+: rest ∧ Reads (.compound .shiftLeftAssign) rest "<<=".toList := by
  have hmem : ⟨.compound .shiftLeftAssign, ⟨0, 1⟩, "<<="⟩ ∈ (scan "a<<=0x1F").tokens := by
    decide +kernel
  exact ⟨hmem, token_reads_of_mem_scan hmem (by decide)⟩

end CExpr
