import CExpr.Proofs.Scan.ByteClasses
import CExpr.Proofs.Scan.Cursor
import CExpr.Proofs.Scan.Order

/-!
# What a cursor has done and has left to do

A cursor is on the way when the text before its turn has given its pieces, and the pieces of the
rest give all that is missing from the scan. Where it stands in the rest depends on the stage: at
its front, behind what has been read of a sign or a string literal, or inside of a span. From this
alone the source can be cut wherever a stage cuts it.
-/

namespace CExpr.Scan

/-! ## What is left of a source -/

/-- The cursor has given what the text before it gives, and the rest gives what is missing. -/
structure Owes (source : String) (cursor : Cursor) (before rest : List Char) : Prop where
  source_eq : source.toList = before ++ rest
  line_eq : cursor.line = before.count '\n'
  tokens_eq : cursor.tokens ++ tokensFrom (locationAfter before) (pieces rest) =
    (scan source).tokens
  reports_eq : cursor.reports ++ reportsFrom (locationAfter before) (pieces rest) =
    (scan source).reports

theorem pieces_append_of_fits {piece : Piece} {after : List Char} (h : piece.Fits after) :
    pieces (piece.text ++ after) = piece :: pieces after :=
  pieces_eq_iff.2 (.cons h (cut_pieces after))

/-- No piece but white space holds a line feed. -/
theorem Piece.Fits.newline_notMem {piece : Piece} {after : List Char} (h : piece.Fits after)
    (hblank : ∀ c, piece ≠ .blank c) : '\n' ∉ piece.text := by
  cases piece with
  | blank c => exact absurd rfl (hblank c)
  | comment text =>
    obtain ⟨body, rfl, hbody, -⟩ := h
    simpa [Piece.text] using hbody
  | lexeme kind text => exact newline_notMem_of_reads h.2
  | malformed fault text =>
    cases fault with
    | invalidCharacter c =>
      obtain ⟨rfl, hspacing, -⟩ := h
      simp only [List.mem_cons, not_or] at hspacing
      simpa [Piece.text] using Ne.symm hspacing.2.2.2.1
    | unterminatedString =>
      obtain ⟨body, rfl, hbody, -⟩ := h
      simp [Piece.text, hbody.2, quote]
    | missingHexDigits =>
      obtain ⟨mark, rfl, hmark, -⟩ := h
      rcases hmark with rfl | rfl <;> decide

/-! ## Stages and what they pass -/

namespace Span

/-- How many bytes are passed before the first one of the class is looked for. -/
def width : Span → Nat
  | hexadecimal => 2
  | _ => 0

/-- What the characters of a span are in the end. -/
def piece (form : Span) (opening body : List Char) : Piece :=
  match form with
  | comment => .comment (opening ++ body)
  | decimal => .lexeme .constant (opening ++ body)
  | hexadecimal =>
    if body = [] then .malformed .missingHexDigits opening else .lexeme .constant (opening ++ body)
  | word => .lexeme (wordKind (opening ++ body)) (opening ++ body)

@[simp] theorem text_piece (form : Span) (opening body : List Char) :
    (form.piece opening body).text = opening ++ body := by
  cases form with
  | hexadecimal => by_cases h : body = [] <;> simp [piece, h, Piece.text]
  | comment | decimal | word => rfl

/-- All that is passed byte by byte takes one byte each, but for comments. -/
theorem isNarrow_part {form : Span} (h : form ≠ .comment) : Text.IsNarrow form.part := by
  cases form with
  | comment => exact absurd rfl h
  | decimal => exact isNarrow_isDigit
  | hexadecimal => exact isNarrow_isHexDigit
  | word => exact isNarrow_isWordPart

/-- A byte belongs to the class exactly if the character does that it shows. -/
theorem part_of_shows {byte c : Char} (form : Span) (h : Text.Shows byte c) :
    form.part byte = form.part c := by
  by_cases hform : form = .comment
  · subst hform
    have hiff : byte = '\n' ↔ c = '\n' := h.eq_iff (by decide)
    rw [Bool.eq_iff_iff]
    simpa [part] using not_congr hiff
  · exact h.class_eq (isNarrow_part hform)

/-- The position lies in the body of a span, or at its end. -/
structure Covers (form : Span) (position : Nat) (before opening body after : List Char) : Prop where
  part_of_mem : ∀ c ∈ body, form.part c = true
  stops : Stops form.part after
  fits : (form.piece opening body).Fits after
  byteLength_opening : Text.byteLength opening = form.width
  le_position : Text.byteLength (before ++ opening) ≤ position
  position_le : position ≤ Text.byteLength (before ++ (opening ++ body))

end Span

/-- Where the position of a stage is, with the text before the turn and the rest behind it. -/
def Stage.Stands (stage : Stage) (position : Nat) (before rest : List Char) : Prop :=
  match stage with
  | turn | spacing => position = Text.byteLength before
  | sign start text kind =>
    start = Text.byteLength before ∧ (text, kind) ∈ signs ∧ ¬['/', '/'] <+: rest ∧
      ∃ after, rest = text ++ after ∧ position = Text.byteLength (before ++ text)
  | string start =>
    start = Text.byteLength before ∧ ∃ body after, rest = quote :: (body ++ after) ∧
      IsStringBody body ∧ position = Text.byteLength (before ++ quote :: body)
  | span form start =>
    start = Text.byteLength before ∧ ∃ opening body after, rest = opening ++ (body ++ after) ∧
      form.Covers position before opening body after
  | finished | broken => False

/-- The cursor is on the way to what the scan gives, or there. -/
inductive Tracks (source : String) (cursor : Cursor) : Prop
  | within {before rest : List Char} (howes : Owes source cursor before rest)
      (hstands : cursor.stage.Stands cursor.position before rest)
  | arrived (hstage : cursor.stage = .finished) (hposition : cursor.position = source.utf8ByteSize)
      (htokens : cursor.tokens = (scan source).tokens)
      (hreports : cursor.reports = (scan source).reports)

/-- How many stages may follow at the same position. None follows a span that is at its start, since
at least one byte of the class stands there. -/
def Cursor.rank (cursor : Cursor) : Nat :=
  match cursor.stage with
  | .finished | .broken => 0
  | .spacing => 1
  | .turn => 2
  | .sign .. | .string _ => 3
  | .span _ start => if cursor.position = start then 0 else 3

theorem Cursor.rank_le (cursor : Cursor) : cursor.rank ≤ 3 := by
  cases hstage : cursor.stage with
  | span form start =>
    simp only [rank, hstage]
    split <;> omega
  | turn | spacing | sign | string | finished | broken => simp [rank, hstage]

/-- The text that was passed is done with, and nothing more is passed. -/
def Ends (cursor next : Cursor) : Prop := next.position = cursor.position ∧ next.rank ≤ 2

theorem ends_fault (cursor : Cursor) (fault : Fault) : Ends cursor (cursor.fault fault) :=
  ⟨rfl, Nat.le_refl 2⟩

theorem ends_emit (source : String) (cursor : Cursor) (kind : List Char → Kind) (start : Nat) :
    Ends cursor (cursor.emit source kind start) := by
  unfold Cursor.emit
  split
  · exact ⟨rfl, Nat.le_refl 2⟩
  · exact ⟨rfl, Nat.zero_le 2⟩

theorem ends_endSpan (source : String) (cursor : Cursor) (form : Span) (start : Nat) :
    Ends cursor (cursor.endSpan source form start) := by
  cases form with
  | comment => exact ⟨rfl, Nat.le_succ 1⟩
  | decimal | word => exact ends_emit source cursor _ start
  | hexadecimal =>
    unfold Cursor.endSpan
    simp only []
    split
    · exact ends_fault cursor _
    · exact ends_emit source cursor _ start

/-- The next cursor is on the way as well, and it is further. -/
structure Follows (source : String) (cursor next : Cursor) : Prop where
  tracks : Tracks source next
  advances : cursor.position < next.position ∨
    next.position = cursor.position ∧ next.rank < cursor.rank

variable {source : String} {cursor next : Cursor} {before after text : List Char}

theorem Tracks.follows_of_ends (h : Tracks source next) (hends : Ends cursor next)
    (hrank : cursor.rank = 3) : Follows source cursor next := by
  refine ⟨h, .inr ⟨hends.1, ?_⟩⟩
  rw [hrank]
  exact Nat.lt_succ_of_le hends.2

namespace Owes

/-- The next piece is given. -/
theorem pass {piece : Piece} (h : Owes source cursor before (piece.text ++ after))
    (hfits : piece.Fits after) (hline : next.line = cursor.line + piece.text.count '\n')
    (htokens : next.tokens = cursor.tokens ++ (piece.token? (locationAfter before)).toList)
    (hreports : next.reports = cursor.reports ++ (piece.report? (locationAfter before)).toList) :
    Owes source next (before ++ piece.text) after where
  source_eq := by rw [h.source_eq, List.append_assoc]
  line_eq := by rw [hline, h.line_eq, List.count_append]
  tokens_eq := by
    rw [← h.tokens_eq, pieces_append_of_fits hfits, tokensFrom, htokens, locationAfter_append,
      List.append_assoc]
  reports_eq := by
    rw [← h.reports_eq, pieces_append_of_fits hfits, reportsFrom, hreports, locationAfter_append,
      List.append_assoc]

theorem move {rest : List Char} (h : Owes source cursor before rest) (stage : Stage)
    (width : Nat) : Owes source (cursor.move stage width) before rest :=
  ⟨h.source_eq, h.line_eq, h.tokens_eq, h.reports_eq⟩

theorem emit_eq (h : Owes source cursor before (text ++ after))
    (hposition : cursor.position = Text.byteLength (before ++ text)) (kind : List Char → Kind) :
    cursor.emit source kind (Text.byteLength before) =
      { cursor with
        stage := .turn
        tokens := cursor.tokens ++ [⟨kind text, locationAfter before, String.ofList text⟩] } := by
  rw [Cursor.emit, hposition, Text.slice?_eq h.source_eq, h.line_eq]
  rfl

/-- A token is given where its text has been passed. -/
theorem tracks_emit (h : Owes source cursor before (text ++ after))
    (hposition : cursor.position = Text.byteLength (before ++ text)) {kind : List Char → Kind}
    (hfits : (Piece.lexeme (kind text) text).Fits after) :
    Tracks source (cursor.emit source kind (Text.byteLength before)) := by
  have hline := List.count_eq_zero.2 (hfits.newline_notMem (by simp))
  rw [h.emit_eq hposition]
  refine .within (h.pass hfits ?_ rfl ?_) hposition
  · rw [hline, Nat.add_zero]
  · simp [Piece.report?]

/-- A fault is reported where its text has been passed. -/
theorem tracks_fault (h : Owes source cursor before (text ++ after))
    (hposition : cursor.position = Text.byteLength (before ++ text)) {fault : Fault}
    (hfits : (Piece.malformed fault text).Fits after) : Tracks source (cursor.fault fault) := by
  have hline := List.count_eq_zero.2 (hfits.newline_notMem (by simp))
  refine .within (h.pass hfits ?_ ?_ ?_) hposition
  · rw [hline, Nat.add_zero]
    rfl
  · simp [Piece.token?, Cursor.fault]
  · simp [Piece.report?, Cursor.fault, h.line_eq, locationAfter]

end Owes

/-! ## Boundaries -/

/-- The source can be cut at the position of the cursor, unless a comment is passed, and where the
text begins that is passed. So the text can be cut out of the source, and so can what is left. -/
structure Cursor.Sound (source : String) (cursor : Cursor) : Prop where
  unbroken : cursor.stage ≠ .broken
  position_le : cursor.position ≤ source.utf8ByteSize
  isBoundary : cursor.stage.isComment = false → Text.IsBoundary source cursor.position
  start : ∀ start ∈ cursor.stage.start?, Text.IsBoundary source start ∧ start ≤ cursor.position
  text : cursor.stage.isComment = false →
    ∀ start ∈ cursor.stage.start?, (Text.slice? source start cursor.position).isSome
  rest : cursor.stage.isComment = false →
    (Text.slice? source cursor.position source.utf8ByteSize).isSome

/-- Boundaries are all that the cuts need. -/
theorem Cursor.sound_of_isBoundary (hunbroken : cursor.stage ≠ .broken)
    (hle : cursor.position ≤ source.utf8ByteSize)
    (hboundary : cursor.stage.isComment = false → Text.IsBoundary source cursor.position)
    (hstart : ∀ start ∈ cursor.stage.start?,
      Text.IsBoundary source start ∧ start ≤ cursor.position) : cursor.Sound source where
  unbroken := hunbroken
  position_le := hle
  isBoundary := hboundary
  start := hstart
  text := by
    intro hstage start hmem
    obtain ⟨hfirst, hbefore⟩ := hstart start hmem
    exact Text.isSome_slice?_iff.2 ⟨hbefore, hfirst, hboundary hstage⟩
  rest := by
    intro hstage
    exact Text.isSome_slice?_iff.2 ⟨hle, hboundary hstage, Text.isBoundary_end source⟩

/-- A stage whose text has been passed up to the position. -/
theorem Owes.sound (h : Owes source cursor before (text ++ after))
    (hposition : cursor.position = Text.byteLength (before ++ text))
    (hstage : cursor.stage ≠ .broken)
    (hstart : ∀ start ∈ cursor.stage.start?, start = Text.byteLength before) :
    cursor.Sound source := by
  have hboundary : Text.IsBoundary source cursor.position := by
    rw [hposition]
    exact Text.isBoundary_of_eq (by rw [h.source_eq, List.append_assoc])
  refine Cursor.sound_of_isBoundary hstage hboundary.le (fun _ ↦ hboundary) fun start hmem ↦ ?_
  rw [hstart start hmem, hposition, Text.byteLength_append]
  exact ⟨Text.isBoundary_of_eq h.source_eq, Nat.le_add_right _ _⟩

theorem Span.sound {form : Span} {opening body : List Char}
    (h : Owes source cursor before (opening ++ (body ++ after)))
    (hstage : cursor.stage = .span form (Text.byteLength before))
    (hcovers : form.Covers cursor.position before opening body after) : cursor.Sound source := by
  have hsource : source.toList = (before ++ opening) ++ (body ++ after) := by
    rw [h.source_eq, List.append_assoc]
  have hstop : cursor.position ≤ Text.byteLength ((before ++ opening) ++ body) := by
    rw [List.append_assoc]
    exact hcovers.position_le
  have hstart : Text.byteLength before ≤ cursor.position := by
    refine Nat.le_trans ?_ hcovers.le_position
    rw [Text.byteLength_append]
    exact Nat.le_add_right _ _
  refine Cursor.sound_of_isBoundary (by simp [hstage]) ?_ (fun hform ↦ ?_) ?_
  · refine hstop.trans ?_
    rw [Text.utf8ByteSize_of_eq hsource, Text.byteLength_append, Text.byteLength_append body]
    omega
  · have hnot : form ≠ .comment := by
      rintro rfl
      simp [hstage, Stage.isComment] at hform
    refine Text.isBoundary_inside hsource (fun c hc ↦ ?_) hcovers.le_position hstop
    exact (isNarrow_part hnot).toNat_lt (hcovers.part_of_mem c hc)
  · rintro start hmem
    rw [hstage] at hmem
    obtain rfl := Option.some.inj hmem
    exact ⟨Text.isBoundary_of_eq h.source_eq, hstart⟩

theorem Tracks.sound (h : Tracks source cursor) : cursor.Sound source := by
  cases h with
  | arrived hstage hposition =>
    have hboundary : Text.IsBoundary source cursor.position := by
      rw [hposition]
      exact Text.isBoundary_end source
    exact Cursor.sound_of_isBoundary (by simp [hstage]) hboundary.le (fun _ ↦ hboundary)
      (by simp [hstage, Stage.start?])
  | @within before rest howes hstands =>
    cases hstage : cursor.stage with
    | turn | spacing =>
      rw [hstage] at hstands
      have hposition : cursor.position = Text.byteLength (before ++ []) := by
        rw [List.append_nil]
        exact hstands
      exact Owes.sound howes hposition (by simp [hstage]) (by simp [hstage, Stage.start?])
    | sign start text kind =>
      rw [hstage] at hstands
      obtain ⟨rfl, -, -, after, rfl, hposition⟩ := hstands
      exact howes.sound hposition (by simp [hstage]) (by simp [hstage, Stage.start?])
    | string start =>
      rw [hstage] at hstands
      obtain ⟨rfl, body, after, rfl, -, hposition⟩ := hstands
      exact Owes.sound howes hposition (by simp [hstage]) (by simp [hstage, Stage.start?])
    | span form start =>
      rw [hstage] at hstands
      obtain ⟨rfl, opening, body, after, rfl, hcovers⟩ := hstands
      exact Span.sound howes hstage hcovers
    | finished | broken =>
      rw [hstage] at hstands
      exact hstands.elim

end CExpr.Scan
