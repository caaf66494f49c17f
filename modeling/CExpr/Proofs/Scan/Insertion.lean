import CExpr.Proofs.Scan.Order

/-!
# White space before a token

White space that is put in front of a token ends whatever stands before it, and what stands before a
token has ended already. So every piece is cut off as it was, and what lies behind the white space
is only moved. At the end of a source white space may go into a comment or a string that is not
closed, and there it makes no difference to the tokens and reports.
-/

namespace CExpr

theorem Location.advance_eq_shift (location : Location) (text : List Char) :
    location.advance text = (Location.start.advance text).shift location := by
  simp [advance, shift, start, Nat.add_comm]

namespace Scan

/-! ## Blanks -/

/-- The pieces of a text of white space. -/
def blanks (spaces : List Char) : List Piece := spaces.map .blank

theorem flatMap_text_blanks (spaces : List Char) : (blanks spaces).flatMap Piece.text = spaces := by
  simp [blanks, List.flatMap_map, Piece.text]

theorem gather_blanks {α : Type} {give : Location → Piece → Option α}
    (hblank : ∀ location c, give location (.blank c) = none) (location : Location)
    (spaces : List Char) : gather give location (blanks spaces) = [] := by
  induction spaces generalizing location with
  | nil => rfl
  | cons c spaces ih =>
    change (give location (.blank c)).toList ++ gather give _ (blanks spaces) = []
    rw [hblank, ih]
    rfl

section

variable {spaces : List Char} (hspaces : ∀ c ∈ spaces, isSpacing c = true)
include hspaces

theorem Cut.blanks_append {after : List Char} {cut : List Piece} (h : Cut after cut) :
    Cut (spaces ++ after) (blanks spaces ++ cut) := by
  induction spaces with
  | nil => exact h
  | cons c spaces ih =>
    obtain ⟨hc, hspaces⟩ := List.forall_mem_cons.1 hspaces
    have hblank : (Piece.blank c).Fits (spaces ++ after) := isSpacing_iff.1 hc
    exact .cons hblank (ih hspaces)

theorem pieces_of_isSpacing : pieces spaces = blanks spaces := by
  have h := Cut.blanks_append hspaces .nil
  rw [List.append_nil, List.append_nil] at h
  exact h.pieces_eq

end

/-! ## In front of a token -/

theorem Cut.of_append {source : List Char} {front back : List Piece}
    (h : Cut source (front ++ back)) : Cut (back.flatMap Piece.text) back := by
  induction front generalizing source with
  | nil =>
    have hback : Cut source back := h
    rwa [hback.flatMap_text]
  | cons piece front ih =>
    cases h with
    | cons _ hrest => exact ih hrest

theorem not_endsLine_of_fits {kind : Kind} {text after : List Char}
    (h : (Piece.lexeme kind text).Fits after) : ¬EndsLine (text ++ after) := by
  obtain ⟨first, rest, rfl⟩ := List.exists_cons_of_ne_nil (ne_nil_of_reads h.2)
  intro hline
  obtain rfl := hline first rfl
  exact newline_notMem_of_reads h.2 List.mem_cons_self

theorem MakeSame.trans {first second third : List Piece} (h : MakeSame first second)
    (hthird : MakeSame second third) : MakeSame first third where
  words location := (h.words location).trans (hthird.words location)
  reports location := (h.reports location).trans (hthird.reports location)

theorem MakeSame.symm {first second : List Piece} (h : MakeSame first second) :
    MakeSame second first where
  words location := (h.words location).symm
  reports location := (h.reports location).symm

theorem makeSame_append_blanks (pieces : List Piece) (spaces : List Char) :
    MakeSame (pieces ++ blanks spaces) pieces where
  words location := by rw [gather_append, gather_blanks fun _ _ ↦ rfl, List.append_nil]
  reports location := by rw [gather_append, gather_blanks fun _ _ ↦ rfl, List.append_nil]

/-- White space at the end of a source makes no difference. -/
theorem makeSame_append_spaces {spaces : List Char} (hspaces : ∀ c ∈ spaces, isSpacing c = true)
    (source : List Char) : MakeSame (pieces (source ++ spaces)) (pieces source) := by
  induction spaces generalizing source with
  | nil =>
    rw [List.append_nil]
    exact ⟨fun _ ↦ rfl, fun _ ↦ rfl⟩
  | cons c spaces ih =>
    obtain ⟨hc, hrest⟩ := List.forall_mem_cons.1 hspaces
    by_cases hline : c = '\n'
    · subst hline
      rw [pieces_append_newline, pieces_of_isSpacing hrest]
      exact makeSame_append_blanks (pieces source) ('\n' :: spaces)
    · obtain ⟨cut, hcut, hsame⟩ := (cut_pieces source).exists_append_spacing hc hline
      have hlonger := ih hrest (source ++ [c])
      rw [List.append_assoc, List.singleton_append, hcut.pieces_eq] at hlonger
      exact hlonger.trans hsame

/-- Pieces that stand at a token of the source, or at its end. -/
def BeginsToken (back : List Piece) : Prop :=
  back = [] ∨ ∃ kind text rest, back = .lexeme kind text :: rest

/-- White space before a token or at the end is as good as blanks between the pieces. -/
theorem makeSame_insert {source spaces : List Char} {front back : List Piece}
    (h : Cut source (front ++ back)) (hback : BeginsToken back)
    (hspaces : ∀ c ∈ spaces, isSpacing c = true) :
    MakeSame (pieces (front.flatMap Piece.text ++ (spaces ++ back.flatMap Piece.text)))
      (front ++ (blanks spaces ++ back)) := by
  rcases hback with rfl | ⟨kind, text, rest, rfl⟩
  · have hsource := h.flatMap_text
    rw [List.append_nil] at h hsource
    rw [List.flatMap_nil, List.append_nil, List.append_nil, hsource, ← h.pieces_eq]
    exact (makeSame_append_spaces hspaces source).trans (makeSame_append_blanks _ spaces).symm
  · have hcut : Cut (front.flatMap Piece.text ++
        (spaces ++ (Piece.lexeme kind text :: rest).flatMap Piece.text))
        (front ++ (blanks spaces ++ .lexeme kind text :: rest)) := by
      cases spaces with
      | nil => rwa [List.nil_append, ← List.flatMap_append, h.flatMap_text]
      | cons c spaces =>
        have htoken := h.of_append
        have hline : ¬EndsLine ((Piece.lexeme kind text :: rest).flatMap Piece.text) :=
          not_endsLine_of_fits htoken.fits_head
        exact h.replace (absurd · hline) (htoken.blanks_append hspaces)
          (endsWord_cons (hspaces c List.mem_cons_self) _)
    rw [hcut.pieces_eq]
    exact ⟨fun _ ↦ rfl, fun _ ↦ rfl⟩

/-! ## What is given behind a place -/

theorem map_gather {α β : Type} {give : Location → Piece → Option α} (change : α → β)
    (location : Location) (pieces : List Piece) :
    (gather give location pieces).map change =
      gather (fun location piece ↦ (give location piece).map change) location pieces := by
  induction pieces generalizing location with
  | nil => rfl
  | cons piece pieces ih => rw [gather, gather, List.map_append, ih, Option.toList_map]

/-- What is given behind blanks is moved by them. -/
theorem Shifts.gather_blanks_append {α : Type} {give : Location → Piece → Option α}
    {move : Location → α → α} (h : Shifts give move)
    (hblank : ∀ location c, give location (.blank c) = none) (location : Location)
    (spaces : List Char) (back : List Piece) :
    Scan.gather give location (blanks spaces ++ back) =
      (Scan.gather give location back).map (move (Location.start.advance spaces)) := by
  rw [gather_append, gather_blanks hblank, List.nil_append, flatMap_text_blanks,
    Location.advance_eq_shift, h.gather]

theorem tokensFrom_append (location : Location) (front back : List Piece) :
    tokensFrom location (front ++ back) =
      gather Piece.token? location front ++
        tokensFrom (location.advance (front.flatMap Piece.text)) back := by
  rw [tokensFrom_eq_gather, tokensFrom_eq_gather, gather_append, List.flatMap_append,
    Location.advance_append, List.append_assoc]

/-- The tokens from a place on, when white space is put in there. -/
theorem tokensFrom_blanks_append (location : Location) (spaces : List Char) (back : List Piece) :
    tokensFrom location (blanks spaces ++ back) =
      (tokensFrom location back).map (Token.shift (Location.start.advance spaces)) := by
  have hend : location.advance ((blanks spaces ++ back).flatMap Piece.text) =
      (Location.start.advance spaces).shift (location.advance (back.flatMap Piece.text)) := by
    rw [List.flatMap_append, flatMap_text_blanks, Location.advance_append,
      Location.advance_eq_shift location, Location.advance_shift]
  rw [tokensFrom_eq_gather, tokensFrom_eq_gather, shifts_token?.gather_blanks_append
    fun _ _ ↦ rfl, hend, List.map_append]
  rfl

/-- A token of a scan stands between the pieces that give the tokens before it and those that begin
with it, or that are none if it is the end. -/
theorem exists_append_of_tokensFrom_eq {location : Location} {pieces : List Piece}
    {front back : List Token} {token : Token}
    (h : tokensFrom location pieces = front ++ token :: back) :
    ∃ before after, pieces = before ++ after ∧ BeginsToken after ∧
      gather Piece.token? location before = front ∧
      token.location = location.advance (before.flatMap Piece.text) ∧
      tokensFrom token.location after = token :: back := by
  induction pieces generalizing location front with
  | nil =>
    obtain ⟨rfl, hstop⟩ | ⟨-, hnil⟩ := List.singleton_eq_append_iff.1 h
    · obtain ⟨rfl, rfl⟩ := List.cons.inj hstop
      exact ⟨[], [], rfl, .inl rfl, rfl, location.advance_nil.symm, rfl⟩
    · cases hnil
  | cons piece pieces ih =>
    have hlater : ∀ {front : List Token}, tokensFrom (location.advance piece.text) pieces =
        front ++ token :: back → ∃ before after, piece :: pieces = before ++ after ∧
          BeginsToken after ∧
          gather Piece.token? location before = (piece.token? location).toList ++ front ∧
          token.location = location.advance (before.flatMap Piece.text) ∧
          tokensFrom token.location after = token :: back := by
      intro front h
      obtain ⟨before, after, rfl, hbegins, hgather, hlocation, hafter⟩ := ih h
      refine ⟨piece :: before, after, rfl, hbegins, by rw [gather, hgather], ?_, hafter⟩
      rw [hlocation, List.flatMap_cons, Location.advance_append]
    cases piece with
    | blank | comment | malformed => exact hlater h
    | lexeme kind text =>
      cases front with
      | nil =>
        obtain ⟨htoken, -⟩ := List.cons.inj h
        subst htoken
        exact ⟨[], _, rfl, .inr ⟨kind, text, pieces, rfl⟩, rfl, location.advance_nil.symm, h⟩
      | cons first front =>
        obtain ⟨hfirst, hrest⟩ := List.cons.inj h
        obtain ⟨before, after, hpieces, hbegins, hgather, hplace⟩ := hlater hrest
        exact ⟨before, after, hpieces, hbegins, hgather.trans (by rw [← hfirst]; rfl), hplace⟩

/-! ## Reports in their places -/

/-- The report of a piece with the position at which the piece begins. -/
def Piece.placedReport? (location : Location) (piece : Piece) : Option (Nat × Report) :=
  (piece.report? location).map fun report ↦ (location.position, report)

/-- The reports of a source, each with the position of the malformed span that it is about. -/
def placedReports (source : String) : List (Nat × Report) :=
  gather Piece.placedReport? .start (pieces source.toList)

theorem map_snd_gather_placedReport? (location : Location) (pieces : List Piece) :
    (gather Piece.placedReport? location pieces).map Prod.snd =
      gather Piece.report? location pieces := by
  rw [map_gather]
  congr
  funext location piece
  cases piece <;> rfl

theorem map_snd_placedReports (source : String) :
    (placedReports source).map Prod.snd = (scan source).reports := by
  rw [reports_eq_gather, placedReports, map_snd_gather_placedReport?]

theorem places_placedReport? : Places Piece.placedReport? Prod.fst := by
  intro location piece given hgiven
  obtain ⟨report, -, rfl⟩ := Option.map_eq_some_iff.1 hgiven
  rfl

/-- The reports of two parts of the pieces, when those of the second part are moved. -/
theorem map_placedReports_append {location : Location} {front back : List Piece}
    (hpieces : ∀ piece ∈ front ++ back, piece.text ≠ []) (move : Report → Report) :
    (gather Piece.placedReport? location (front ++ back)).map (fun place ↦
        if place.1 < (location.advance (front.flatMap Piece.text)).position then place.2
        else move place.2) =
      gather Piece.report? location front ++
        (gather Piece.report? (location.advance (front.flatMap Piece.text)) back).map move := by
  rw [gather_append, List.map_append, ← map_snd_gather_placedReport?,
    ← map_snd_gather_placedReport?, List.map_map]
  congr 1
  · refine List.map_congr_left fun place hplace ↦ if_pos ?_
    have hfront := fun piece hpiece ↦ hpieces piece (List.mem_append_left _ hpiece)
    exact (places_placedReport?.bounds_of_mem hfront place hplace).2
  · refine List.map_congr_left fun place hplace ↦ if_neg ?_
    have hback := fun piece hpiece ↦ hpieces piece (List.mem_append_right _ hpiece)
    exact Nat.not_lt.2 (places_placedReport?.bounds_of_mem hback place hplace).1

/-! ## Sources with white space put in -/

/-- The text that the pieces cover. -/
def textOf (pieces : List Piece) : String := String.ofList (pieces.flatMap Piece.text)

section

variable {source spaces : String} {front back : List Piece}

theorem eq_textOf_append (hpieces : pieces source.toList = front ++ back) :
    source = textOf front ++ textOf back := by
  rw [textOf, textOf, ← String.ofList_append, ← List.flatMap_append, ← hpieces, pieces_text,
    String.ofList_toList]

theorem toList_inserted :
    (textOf front ++ spaces ++ textOf back).toList =
      front.flatMap Piece.text ++ (spaces.toList ++ back.flatMap Piece.text) := by
  simp [textOf]

theorem advance_spaces :
    Location.start.advance spaces.toList =
      ⟨spaces.toList.count '\n', spaces.utf8ByteSize⟩ := by
  simp [Location.advance, Location.start]

variable (hpieces : pieces source.toList = front ++ back) (hback : BeginsToken back)
  (hspaces : ∀ c ∈ spaces.toList, c ∈ [' ', '\t', '\r', '\n'])
include hpieces hback hspaces

theorem makeSame_inserted :
    MakeSame (pieces (textOf front ++ spaces ++ textOf back).toList)
      (front ++ (blanks spaces.toList ++ back)) := by
  have hcut : Cut source.toList (front ++ back) := hpieces ▸ cut_pieces source.toList
  rw [toList_inserted]
  exact makeSame_insert hcut hback fun c hc ↦ isSpacing_iff.2 (hspaces c hc)

theorem tokens_inserted :
    (scan (textOf front ++ spaces ++ textOf back)).tokens =
      gather Piece.token? .start front ++
        (tokensFrom (Location.start.advance (front.flatMap Piece.text)) back).map
          (Token.shift ⟨spaces.toList.count '\n', spaces.utf8ByteSize⟩) := by
  have htext : (textOf front ++ spaces ++ textOf back).toList =
      (front ++ (blanks spaces.toList ++ back)).flatMap Piece.text := by
    rw [toList_inserted, List.flatMap_append, List.flatMap_append, flatMap_text_blanks]
  rw [tokens_eq_gather, (makeSame_inserted hpieces hback hspaces).words, htext,
    ← tokensFrom_eq_gather, tokensFrom_append, tokensFrom_blanks_append, advance_spaces]

theorem reports_inserted :
    (scan (textOf front ++ spaces ++ textOf back)).reports =
      gather Piece.report? .start front ++
        (gather Piece.report? (Location.start.advance (front.flatMap Piece.text)) back).map
          (Report.shift (spaces.toList.count '\n')) := by
  rw [reports_eq_gather, (makeSame_inserted hpieces hback hspaces).reports, gather_append,
    shifts_report?.gather_blanks_append fun _ _ ↦ rfl, advance_spaces]

end

end Scan

open Scan

/-! ## Scans -/

/-- White space that is put in before a token changes nothing but places. The tokens before it stay
where they are, and the token and those after it are moved behind the white space. The reports of
malformed spans before the token stay, and those of later ones are moved by the line feeds. -/
theorem scan_insert_spacing {source : String} {front back : List Token} {token : Token}
    (h : (scan source).tokens = front ++ token :: back) :
    (placedReports source).map Prod.snd = (scan source).reports ∧
      ∃ before after : String, source = before ++ after ∧
        before.utf8ByteSize = token.location.position ∧
        ∀ spaces : String, (∀ c ∈ spaces.toList, c ∈ [' ', '\t', '\r', '\n']) →
          (scan (before ++ spaces ++ after)).tokens =
              front ++ (token :: back).map
                (Token.shift ⟨spaces.toList.count '\n', spaces.utf8ByteSize⟩) ∧
            (scan (before ++ spaces ++ after)).reports =
              (placedReports source).map fun place ↦
                if place.1 < token.location.position then place.2
                else place.2.shift (spaces.toList.count '\n') := by
  obtain ⟨first, second, hpieces, hbegins, hfront, hlocation, hback⟩ :=
    exists_append_of_tokensFrom_eq h
  refine ⟨map_snd_placedReports source, textOf first, textOf second, eq_textOf_append hpieces, ?_,
    fun spaces hspaces ↦ ⟨?_, ?_⟩⟩
  · rw [hlocation, Location.position_advance, textOf, ← Text.byteLength_eq_utf8ByteSize]
    exact (Nat.zero_add _).symm
  · rw [tokens_inserted hpieces hbegins hspaces, hfront, ← hlocation, hback]
  · have hne := fun piece ↦ @text_ne_nil_of_mem_pieces source.toList piece
    rw [hpieces] at hne
    rw [reports_inserted hpieces hbegins hspaces, placedReports, hpieces, hlocation,
      map_placedReports_append hne]

/-- A prefix without digits, two signs that would be one without the white space, and a string that
is not closed. -/
theorem scan_insert_spacing_between_signs :
    (scan "0xg+++\x22s").tokens =
        [⟨.identifier, ⟨0, 2⟩, "g"⟩, ⟨.compound .increment, ⟨0, 3⟩, "++"⟩] ++
          ⟨.punct '+', ⟨0, 5⟩, "+"⟩ :: [⟨.endOfInput, ⟨0, 8⟩, ""⟩] ∧
      ∃ before after : String, "0xg+++\x22s" = before ++ after ∧ before.utf8ByteSize = 5 ∧
        (scan (before ++ " \n" ++ after)).tokens =
            [⟨.identifier, ⟨0, 2⟩, "g"⟩, ⟨.compound .increment, ⟨0, 3⟩, "++"⟩,
              ⟨.punct '+', ⟨1, 7⟩, "+"⟩, ⟨.endOfInput, ⟨1, 10⟩, ""⟩] ∧
          (scan (before ++ " \n" ++ after)).reports =
            [⟨0, "Missing digits in hexadecimal constant"⟩,
              ⟨1, "Unterminated string literal"⟩] := by
  have htokens : (scan "0xg+++\x22s").tokens =
      [⟨.identifier, ⟨0, 2⟩, "g"⟩, ⟨.compound .increment, ⟨0, 3⟩, "++"⟩] ++
        ⟨.punct '+', ⟨0, 5⟩, "+"⟩ :: [⟨.endOfInput, ⟨0, 8⟩, ""⟩] := by
    decide +kernel
  obtain ⟨-, before, after, hsource, hsize, hinsert⟩ := scan_insert_spacing htokens
  obtain ⟨hscan, hreports⟩ := hinsert " \n" (by simp)
  exact ⟨htokens, before, after, hsource, hsize, hscan, hreports.trans (by decide +kernel)⟩

end CExpr
