import CExpr.Scan.Piece
import CExpr.Scan.Report
import CExpr.Text.Utf8

/-!
# Scans

A scan gives the tokens and the reports of a source. Each piece is located by what stands before it,
a token for every lexeme and a report for every malformed span. The tokens close with the end of the
input, located after the whole source.
-/

namespace CExpr

/-- The location after a text that begins here. -/
def Location.advance (location : Location) (text : List Char) : Location :=
  ⟨location.line + text.count '\n', location.position + Text.byteLength text⟩

@[simp] theorem Location.advance_nil (location : Location) : location.advance [] = location := by
  simp [Location.advance]

@[simp] theorem Location.advance_append (location : Location) (first second : List Char) :
    location.advance (first ++ second) = (location.advance first).advance second := by
  simp [Location.advance, Nat.add_assoc]

namespace Scan

/-- The token of a piece at a location, if the piece is a lexeme. -/
def Piece.token? (location : Location) : Piece → Option Token
  | lexeme kind text => some ⟨kind, location, String.ofList text⟩
  | _ => none

/-- The report of a piece at a location, if the piece is malformed. -/
def Piece.report? (location : Location) : Piece → Option Report
  | malformed fault _ => some ⟨location.line, fault.message⟩
  | _ => none

/-- The tokens of pieces that begin at a location, and the end of the input after them. -/
def tokensFrom (location : Location) : List Piece → List Token
  | [] => [⟨.endOfInput, location, ""⟩]
  | piece :: rest =>
    (piece.token? location).toList ++ tokensFrom (location.advance piece.text) rest

/-- The reports of pieces that begin at a location. -/
def reportsFrom (location : Location) : List Piece → List Report
  | [] => []
  | piece :: rest =>
    (piece.report? location).toList ++ reportsFrom (location.advance piece.text) rest

end Scan

/-- The tokens of a source with the end of the input, and the reports of its faults. -/
structure Scan where
  tokens : List Token
  reports : List Report
  deriving DecidableEq, Repr

/-- The scan of a source. -/
def scan (source : String) : Scan :=
  let pieces := Scan.pieces source.toList
  ⟨Scan.tokensFrom .start pieces, Scan.reportsFrom .start pieces⟩

/-- Scans a source and adds its reports to a log. -/
def scanInto (log : ReportLog) (source : String) : List Token × ReportLog :=
  ((scan source).tokens, log.addAll (scan source).reports)

theorem scanInto_empty (source : String) :
    scanInto .empty source = ((scan source).tokens, ⟨(scan source).reports⟩) := by
  have hreports : (ReportLog.empty.addAll (scan source).reports).reports =
      (scan source).reports := by
    rw [ReportLog.reports_addAll, ReportLog.reports_empty, List.nil_append]
  exact congrArg (fun reports ↦ ((scan source).tokens, ReportLog.mk reports)) hreports

namespace Scan

/-- The end of the input lies after all text of the pieces. -/
theorem getLast?_tokensFrom (location : Location) (pieces : List Piece) :
    (tokensFrom location pieces).getLast? =
      some ⟨.endOfInput, location.advance (pieces.flatMap Piece.text), ""⟩ := by
  induction pieces generalizing location with
  | nil => simp [tokensFrom]
  | cons piece rest ih =>
    simp [tokensFrom, List.getLast?_append, ih]

/-- The tokens of a source close with the end of the input, located after the whole source. -/
theorem getLast?_tokens (source : String) :
    (scan source).tokens.getLast? =
      some ⟨.endOfInput, Location.start.advance source.toList, ""⟩ := by
  rw [scan, getLast?_tokensFrom, pieces_text]

end Scan

end CExpr
