import CExpr.Proofs.Scan.Joined
import CExpr.Proofs.Text.Lines

/-!
# Line by line

No piece but a blank holds a line feed, and whether a piece fits is not changed by a line feed after
it. So what stands on both sides of a line feed is scanned as if the other side were not there: the
tokens and reports of the second side follow those of the first, counted from the place after the
line feed. A carriage return at the end of a line is white space, or belongs to what the line ends
with and makes no token. A text is therefore scanned as its lines are, one after the other.
-/

namespace CExpr

/-! ## Shifted places -/

/-- The location, counted from an offset instead of the start. -/
def Location.shift (offset location : Location) : Location :=
  ⟨offset.line + location.line, offset.position + location.position⟩

def Token.shift (offset : Location) (token : Token) : Token :=
  ⟨token.kind, offset.shift token.location, token.lexeme⟩

def Report.shift (lines : Nat) (report : Report) : Report :=
  ⟨lines + report.line, report.message⟩

namespace Location

variable (offset location : Location)

theorem shift_start : offset.shift .start = offset := rfl

theorem advance_shift (text : List Char) :
    (offset.shift location).advance text = offset.shift (location.advance text) := by
  simp [shift, advance, Nat.add_assoc]

end Location

namespace Scan

/-! ## What pieces give -/

/-- What each piece gives at the location where it begins, from a location on. -/
def gather {α : Type} (give : Location → Piece → Option α) (location : Location) :
    List Piece → List α
  | [] => []
  | piece :: rest =>
    (give location piece).toList ++ gather give (location.advance piece.text) rest

/-- Pieces at a shifted location give the same, shifted. -/
def Shifts {α : Type} (give : Location → Piece → Option α) (move : Location → α → α) : Prop :=
  ∀ offset location piece, give (offset.shift location) piece =
    (give location piece).map (move offset)

theorem shifts_token? : Shifts Piece.token? Token.shift := by
  intro offset location piece
  cases piece <;> rfl

theorem shifts_report? : Shifts Piece.report? fun offset ↦ Report.shift offset.line := by
  intro offset location piece
  cases piece <;> rfl

section Gather

variable {α : Type} {give : Location → Piece → Option α} {move : Location → α → α}
  (location : Location) (front back : List Piece)

theorem gather_append :
    gather give location (front ++ back) =
      gather give location front ++
        gather give (location.advance (front.flatMap Piece.text)) back := by
  induction front generalizing location with
  | nil => simp [gather]
  | cons piece front ih => simp [gather, ih]

theorem Shifts.gather (h : Shifts give move) (offset : Location) :
    gather give (offset.shift location) front = (gather give location front).map (move offset) := by
  induction front generalizing location with
  | nil => rfl
  | cons piece front ih =>
    simp only [Scan.gather, Location.advance_shift, ih, h offset location piece, List.map_append,
      Option.toList_map]

/-- What pieces give from a place on is what they give from the start, shifted to the place. -/
theorem Shifts.gather_start (h : Shifts give move) :
    Scan.gather give location front = (Scan.gather give .start front).map (move location) :=
  h.gather .start front location

theorem reportsFrom_eq_gather :
    reportsFrom location front = gather Piece.report? location front := by
  induction front generalizing location with
  | nil => rfl
  | cons piece front ih => rw [reportsFrom, ih, gather]

theorem tokensFrom_eq_gather :
    tokensFrom location front =
      gather Piece.token? location front ++
        [⟨.endOfInput, location.advance (front.flatMap Piece.text), ""⟩] := by
  induction front generalizing location with
  | nil => simp [tokensFrom, gather]
  | cons piece front ih => simp [tokensFrom, gather, ih]

end Gather

theorem tokens_eq_gather (source : String) :
    (scan source).tokens = gather Piece.token? .start (pieces source.toList) ++
      [⟨.endOfInput, Location.start.advance source.toList, ""⟩] := by
  have h := tokensFrom_eq_gather .start (pieces source.toList)
  rw [pieces_text] at h
  exact h

theorem reports_eq_gather (source : String) :
    (scan source).reports = gather Piece.report? .start (pieces source.toList) :=
  reportsFrom_eq_gather .start (pieces source.toList)

theorem wordsOf_eq_gather (source : String) :
    wordsOf source = gather Piece.token? .start (pieces source.toList) := by
  rw [wordsOf_eq]
  exact List.append_inj_left' ((tokens_eq source).symm.trans (tokens_eq_gather source)) rfl

/-! ## What stands behind a piece -/

theorem Stops.append {part : Char → Bool} {after other : List Char} (h : Stops part after)
    (hother : Stops part other) : Stops part (after ++ other) := by
  cases after with
  | nil => exact hother
  | cons first rest => exact h

/-- White space ends the digits of a number. -/
theorem EndsWord.stops_isHexDigit {after : List Char} (h : EndsWord after) :
    Stops isHexDigit after := by
  intro c hc
  rw [← Bool.not_eq_true]
  intro hdigit
  simpa [h c hc] using not_isSpacing_of_class (by decide) hdigit

theorem endsLine_newline (more : List Char) : EndsLine ('\n' :: more) :=
  fun _ hc ↦ (Option.some.inj hc).symm

section

variable {front after other : List Char} (hline : EndsLine after → EndsLine other)
include hline

theorem EndsLine.replace (h : EndsLine (front ++ after)) : EndsLine (front ++ other) := by
  cases front with
  | nil => exact hline h
  | cons first front => exact h

/-- A piece is cut off in the same way before white space that ends the line if what stood there
before did. -/
theorem Piece.Fits.replace {piece : Piece} (hother : EndsWord other)
    (h : piece.Fits (front ++ after)) : piece.Fits (front ++ other) := by
  cases piece with
  | blank c => exact h
  | comment text =>
    obtain ⟨body, rfl, hbody, hafter⟩ := h
    exact ⟨body, rfl, hbody, hafter.replace hline⟩
  | lexeme kind text => exact fits_of_endsWord front hother h
  | malformed fault text =>
    cases fault with
    | invalidCharacter c => exact h
    | unterminatedString =>
      obtain ⟨body, rfl, hbody, hafter⟩ := h
      exact ⟨body, rfl, hbody, hafter.replace hline⟩
    | missingHexDigits =>
      obtain ⟨mark, rfl, hmark, hafter⟩ := h
      refine ⟨mark, rfl, hmark, ?_⟩
      cases front with
      | nil => exact hother.stops_isHexDigit
      | cons first front => exact hafter

end

theorem Cut.flatMap_text {source : List Char} {cut : List Piece} (h : Cut source cut) :
    cut.flatMap Piece.text = source := by
  rw [← h.pieces_eq, pieces_text]

theorem Cut.fits_head {source : List Char} {piece : Piece} {rest : List Piece}
    (h : Cut source (piece :: rest)) : piece.Fits (rest.flatMap Piece.text) := by
  cases h with
  | cons hfits hrest => rwa [hrest.flatMap_text]

/-- What stands behind some pieces may be replaced by another cut that begins with white space. -/
theorem Cut.replace {source text : List Char} {front back other : List Piece}
    (h : Cut source (front ++ back)) (hline : EndsLine (back.flatMap Piece.text) → EndsLine text)
    (hother : Cut text other) (hends : EndsWord text) :
    Cut (front.flatMap Piece.text ++ text) (front ++ other) := by
  induction front generalizing source with
  | nil => exact hother
  | cons piece front ih =>
    have hfits : piece.Fits ((front ++ back).flatMap Piece.text) := h.fits_head
    rw [List.flatMap_append] at hfits
    rw [List.flatMap_cons, List.append_assoc]
    cases h with
    | cons _ hrest => exact .cons (hfits.replace hline hends) (ih hrest)

/-! ## Two sides of a line feed -/

theorem Cut.append_newline {first second : List Char} {front back : List Piece}
    (hfirst : Cut first front) (hsecond : Cut second back) :
    Cut (first ++ '\n' :: second) (front ++ .blank '\n' :: back) := by
  have hblank : (Piece.blank '\n').Fits second := by simp [Piece.Fits]
  have hcut : Cut first (front ++ []) := by rwa [List.append_nil]
  rw [← hfirst.flatMap_text]
  exact hcut.replace (fun _ ↦ endsLine_newline second) (.cons hblank hsecond)
    (endsWord_cons (by decide) second)

theorem pieces_append_newline (first second : List Char) :
    pieces (first ++ '\n' :: second) = pieces first ++ .blank '\n' :: pieces second :=
  ((cut_pieces first).append_newline (cut_pieces second)).pieces_eq

/-! ## White space at the end of a line -/

/-- The pieces make the same tokens and reports, wherever they begin. -/
structure MakeSame (first second : List Piece) : Prop where
  words (location : Location) :
    gather Piece.token? location first = gather Piece.token? location second
  reports (location : Location) :
    gather Piece.report? location first = gather Piece.report? location second

/-- White space at the end is a blank of its own, or belongs to a comment or to a string that is not
closed. -/
theorem Piece.Fits.append_spacing {piece : Piece} {after : List Char} {c : Char}
    (h : piece.Fits after) (hc : isSpacing c = true) (hline : c ≠ '\n') :
    piece.Fits (after ++ [c]) ∨
      after = [] ∧ ∃ longer : Piece, longer.text = piece.text ++ [c] ∧ longer.Fits [] ∧
        MakeSame [longer] [piece] := by
  have hspacing : EndsWord [c] := endsWord_cons hc []
  have hends : ∀ {text : List Char}, EndsLine after → '\n' ∉ text →
      EndsLine (after ++ [c]) ∨ after = [] ∧ '\n' ∉ text ++ [c] := by
    intro text hafter htext
    cases after with
    | nil => exact .inr ⟨rfl, by simp [htext, Ne.symm hline]⟩
    | cons first rest => exact .inl hafter
  cases piece with
  | blank blank => exact .inl h
  | comment text =>
    obtain ⟨body, rfl, hbody, hafter⟩ := h
    rcases hends hafter hbody with hfits | ⟨rfl, hlonger⟩
    · exact .inl ⟨body, rfl, hbody, hfits⟩
    · exact .inr ⟨rfl, .comment ('/' :: '/' :: (body ++ [c])), rfl, ⟨_, rfl, hlonger, nofun⟩,
        fun _ ↦ rfl, fun _ ↦ rfl⟩
  | lexeme kind text =>
    rw [← List.append_nil after] at h
    exact .inl (fits_of_endsWord after hspacing h)
  | malformed fault text =>
    cases fault with
    | invalidCharacter c => exact .inl h
    | unterminatedString =>
      obtain ⟨body, rfl, hbody, hafter⟩ := h
      rcases hends hafter hbody.2 with hfits | ⟨rfl, hlonger⟩
      · exact .inl ⟨body, rfl, hbody, hfits⟩
      · have hquote : c ≠ quote := by
          rintro rfl
          exact absurd hc (by decide)
        have hbody : IsStringBody (body ++ [c]) :=
          ⟨by simp [hbody.1, Ne.symm hquote], hlonger⟩
        exact .inr ⟨rfl, .malformed .unterminatedString (quote :: (body ++ [c])), rfl,
          ⟨_, rfl, hbody, nofun⟩, fun _ ↦ rfl, fun _ ↦ rfl⟩
    | missingHexDigits =>
      obtain ⟨mark, rfl, hmark, hafter⟩ := h
      exact .inl ⟨mark, rfl, hmark, hafter.append hspacing.stops_isHexDigit⟩

theorem MakeSame.cons {first second : List Piece} (h : MakeSame first second) (piece : Piece) :
    MakeSame (piece :: first) (piece :: second) where
  words location := by rw [gather, gather, h.words]
  reports location := by rw [gather, gather, h.reports]

theorem Cut.exists_append_spacing {source : List Char} {cut : List Piece} {c : Char}
    (h : Cut source cut) (hc : isSpacing c = true) (hline : c ≠ '\n') :
    ∃ other, Cut (source ++ [c]) other ∧ MakeSame other cut := by
  induction h with
  | nil =>
    have hblank : (Piece.blank c).Fits [] := isSpacing_iff.1 hc
    exact ⟨[.blank c], .cons hblank .nil, fun _ ↦ rfl, fun _ ↦ rfl⟩
  | @cons piece after cut hfits hrest ih =>
    rcases hfits.append_spacing hc hline with hfits | ⟨rfl, longer, htext, hlonger, hsame⟩
    · obtain ⟨other, hcut, hsame⟩ := ih
      refine ⟨piece :: other, ?_, hsame.cons piece⟩
      rw [List.append_assoc]
      exact .cons hfits hcut
    · obtain rfl : [] = cut := pieces_nil.symm.trans hrest.pieces_eq
      have hcut : Cut (longer.text ++ []) [longer] := .cons hlonger .nil
      rw [htext, List.append_nil] at hcut
      rw [List.append_nil]
      exact ⟨[longer], hcut, hsame⟩

theorem makeSame_dropReturn (line : List Char) :
    MakeSame (pieces line) (pieces (Text.dropReturn line)) := by
  unfold Text.dropReturn
  split
  next h =>
    obtain ⟨front, rfl⟩ := List.getLast?_eq_some_iff.1 h
    have hspacing : isSpacing '\r' = true := by decide
    obtain ⟨other, hcut, hsame⟩ := (cut_pieces front).exists_append_spacing hspacing (by decide)
    rw [List.dropLast_concat, hcut.pieces_eq]
    exact hsame
  next => exact ⟨fun _ ↦ rfl, fun _ ↦ rfl⟩

end Scan

/-! ## The lines of a text -/

namespace Text

/-- The lines of what stands between line feeds, each with the location at which it begins. -/
def placedParts (start : Location) : List (List Char) → List (Location × List Char)
  | [] => []
  | [last] => if last = [] then [] else [(start, last)]
  | part :: next :: parts =>
    (start, dropReturn part) :: placedParts (start.advance (part ++ ['\n'])) (next :: parts)

/-- The lines of a text, each with the location at which it begins. -/
def placedLines (text : String) : List (Location × String) :=
  (placedParts .start (text.toList.splitOn '\n')).map fun place ↦
    (place.1, String.ofList place.2)

theorem map_snd_placedParts (start : Location) (parts : List (List Char)) :
    (placedParts start parts).map Prod.snd = linesOfParts parts := by
  fun_induction placedParts start parts with
  | case1 => rfl
  | case2 => rfl
  | case3 start last h => simp [linesOfParts, h]
  | case4 start part next parts ih => rw [List.map_cons, ih, linesOfParts]

/-- These are the lines that are read from the bytes of the text. -/
theorem map_snd_placedLines (text : String) :
    (placedLines text).map (fun place ↦ some place.2) = lines text.toUTF8 := by
  rw [lines_toUTF8, linesOf, ← map_snd_placedParts .start, placedLines]
  simp

end Text

namespace Scan

/-- What is given at two sides of a line feed. -/
theorem gather_append_newline {α : Type} {give : Location → Piece → Option α}
    (hblank : ∀ location c, give location (.blank c) = none) (start : Location)
    (first second : List Char) :
    gather give start (pieces (first ++ '\n' :: second)) =
      gather give start (pieces first) ++
        gather give (start.advance (first ++ ['\n'])) (pieces second) := by
  rw [pieces_append_newline, gather_append, pieces_text, gather, hblank, Location.advance_append]
  rfl

/-- What is given from line to line, when a carriage return at the end of a line gives nothing. -/
theorem gather_intercalate {α : Type} {give : Location → Piece → Option α}
    {move : Location → α → α} (hshifts : Shifts give move)
    (hblank : ∀ location c, give location (.blank c) = none)
    (hreturn : ∀ location line, gather give location (pieces line) =
      gather give location (pieces (Text.dropReturn line)))
    (start : Location) (parts : List (List Char)) :
    gather give start (pieces (['\n'].intercalate parts)) =
      (Text.placedParts start parts).flatMap fun place ↦
        (gather give .start (pieces place.2)).map (move place.1) := by
  fun_induction Text.placedParts start parts with
  | case1 | case2 => simp [gather]
  | case3 start last =>
    rw [List.intercalate_singleton, List.flatMap_singleton]
    exact hshifts.gather_start start _
  | case4 start part next parts ih =>
    rw [List.intercalate_cons_cons, List.append_assoc, List.singleton_append,
      gather_append_newline hblank, hreturn, hshifts.gather_start, ih, List.flatMap_cons]

end Scan

open Scan

/-! ## Scans -/

/-- The location after a source and a line feed. -/
theorem advance_newline (source : String) :
    Location.start.advance (source.toList ++ ['\n']) =
      ⟨source.toList.count '\n' + 1, source.utf8ByteSize + 1⟩ := by
  have hsize : Char.utf8Size '\n' = 1 := rfl
  simp [Location.advance, Location.start, hsize]

theorem toList_append_newline (first second : String) :
    (first ++ "\n" ++ second).toList = first.toList ++ '\n' :: second.toList := by
  simp

theorem tokens_append_newline (first second : String) :
    (scan (first ++ "\n" ++ second)).tokens =
      wordsOf first ++ (scan second).tokens.map
        (Token.shift ⟨first.toList.count '\n' + 1, first.utf8ByteSize + 1⟩) := by
  have hend : Location.start.advance (first.toList ++ '\n' :: second.toList) =
      (Location.start.advance (first.toList ++ ['\n'])).shift
        (Location.start.advance second.toList) := by
    rw [← Location.advance_shift, Location.shift_start, ← Location.advance_append]
    simp
  rw [tokens_eq_gather, tokens_eq_gather, wordsOf_eq_gather, toList_append_newline,
    gather_append_newline fun _ _ ↦ rfl, shifts_token?.gather_start (Location.advance _ _), hend,
    advance_newline, List.map_append, List.append_assoc]
  rfl

theorem reports_append_newline (first second : String) :
    (scan (first ++ "\n" ++ second)).reports =
      (scan first).reports ++ (scan second).reports.map
        (Report.shift (first.toList.count '\n' + 1)) := by
  rw [reports_eq_gather, reports_eq_gather, reports_eq_gather, toList_append_newline,
    gather_append_newline fun _ _ ↦ rfl, shifts_report?.gather_start (Location.advance _ _),
    advance_newline]

/-- What stands on both sides of a line feed is scanned for itself: the tokens of the first side
without its end and then those of the second side, which are counted from the place after the line
feed, and the reports likewise. So the lines that are read from a text have the tokens and reports
of the text, each counted from where its line begins. -/
theorem scan_newline :
    (∀ first second : String,
      (scan (first ++ "\n" ++ second)).tokens =
          wordsOf first ++ (scan second).tokens.map
            (Token.shift ⟨first.toList.count '\n' + 1, first.utf8ByteSize + 1⟩) ∧
        (scan (first ++ "\n" ++ second)).reports =
          (scan first).reports ++ (scan second).reports.map
            (Report.shift (first.toList.count '\n' + 1))) ∧
      ∀ text : String,
        (Text.placedLines text).map (fun place ↦ some place.2) = Text.lines text.toUTF8 ∧
          wordsOf text = (Text.placedLines text).flatMap (fun place ↦
            (wordsOf place.2).map (Token.shift place.1)) ∧
          (scan text).reports = (Text.placedLines text).flatMap fun place ↦
            (scan place.2).reports.map (Report.shift place.1.line) := by
  refine ⟨fun first second ↦ ⟨tokens_append_newline first second,
    reports_append_newline first second⟩, fun text ↦ ⟨Text.map_snd_placedLines text, ?_, ?_⟩⟩
  · have h := gather_intercalate shifts_token? (fun _ _ ↦ rfl)
      (fun location line ↦ (makeSame_dropReturn line).words location) .start
      (text.toList.splitOn '\n')
    rw [List.intercalate_splitOn] at h
    rw [wordsOf_eq_gather, h, Text.placedLines]
    simp [List.flatMap_map, wordsOf_eq_gather]
  · have h := gather_intercalate shifts_report? (fun _ _ ↦ rfl)
      (fun location line ↦ (makeSame_dropReturn line).reports location) .start
      (text.toList.splitOn '\n')
    rw [List.intercalate_splitOn] at h
    rw [reports_eq_gather, h, Text.placedLines]
    simp [List.flatMap_map, reports_eq_gather]

end CExpr
